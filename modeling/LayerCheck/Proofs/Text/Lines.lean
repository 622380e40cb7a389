import Mathlib
import LayerCheck.Proofs.Text.Bytes
import LayerCheck.Token.Scan

/-! Places and the bytes that stand at them. Places come in the order of their offsets, and what stands in the line
of a place from its column on is what stands at its offset, up to the end of the line. -/
namespace LayerCheck

/-- The bytes of a text from a place to the end of its line. -/
def bytesAt (text : String) (loc : Location) : List UInt8 :=
  (((bytes text).splitOn 10).getD (loc.line - 1) []).drop (loc.col - 1)

/-! ### Lines of bytes -/

theorem getD_splitOn_zero (bs : List UInt8) : (bs.splitOn 10).getD 0 [] = bs.takeWhile (· ≠ 10) := by
  induction bs with
  | nil => rfl
  | cons b bs ih =>
    rw [List.splitOn_cons_eq_if_modifyHead]
    by_cases hb : b = 10
    · simp [hb]
    · obtain ⟨line, lines, hlines⟩ := List.exists_cons_of_ne_nil (List.splitOn_ne_nil (10 : UInt8) bs)
      rw [hlines, List.getD_cons_zero] at ih
      simp [hb, hlines, ih]

theorem length_splitOn (bs : List UInt8) : (bs.splitOn 10).length = bs.count 10 + 1 := by
  induction bs with
  | nil => rfl
  | cons b bs ih =>
    rw [List.splitOn_cons_eq_if_modifyHead]
    by_cases hb : b = 10
    · simp [hb, ih]
    · simp [hb, ih]

/-- Bytes with a line feed among them end with a last line that has none. -/
theorem exists_last_line {bs : List UInt8} (h : 10 ∈ bs) : ∃ lines line, bs = lines ++ 10 :: line ∧ 10 ∉ line := by
  induction bs using List.reverseRecOn with
  | nil => cases h
  | append_singleton bs b ih =>
    by_cases hb : b = 10
    · exact ⟨bs, [], by rw [hb], List.not_mem_nil⟩
    · have hbs : 10 ∈ bs := by simpa [Ne.symm hb] using h
      obtain ⟨lines, line, rfl, hline⟩ := ih hbs
      refine ⟨lines, line ++ [b], by simp, ?_⟩
      simp [hline, Ne.symm hb]

/-! ### Starts of lines -/

namespace LineIndex

/-- Offsets just after each line feed among bytes that begin at `pos`. -/
def startsIn (pos : Nat) : List UInt8 → List Nat
  | [] => []
  | b :: bs => if b = 10 then (pos + 1) :: startsIn (pos + 1) bs else startsIn (pos + 1) bs

theorem startsIn_append (pos : Nat) (xs ys : List UInt8) :
    startsIn pos (xs ++ ys) = startsIn pos xs ++ startsIn (pos + xs.length) ys := by
  induction xs generalizing pos with
  | nil => rfl
  | cons b xs ih =>
    have hpos : pos + 1 + xs.length = pos + (b :: xs).length := by simp; omega
    simp only [List.cons_append, startsIn, ih, hpos]
    split <;> rfl

theorem startsIn_of_not_mem {bs : List UInt8} (h : 10 ∉ bs) (pos : Nat) : startsIn pos bs = [] := by
  induction bs generalizing pos with
  | nil => rfl
  | cons b bs ih =>
    obtain ⟨hb, hbs⟩ := not_or.1 (mt List.mem_cons.2 h)
    rw [startsIn, if_neg (Ne.symm hb), ih hbs]

theorem length_startsIn (pos : Nat) (bs : List UInt8) : (startsIn pos bs).length = bs.count 10 := by
  induction bs generalizing pos with
  | nil => rfl
  | cons b bs ih =>
    by_cases hb : b = 10
    · simp [startsIn, hb, ih]
    · simp [startsIn, hb, ih]

theorem mem_startsIn {pos start : Nat} {bs : List UInt8} (h : start ∈ startsIn pos bs) :
    pos < start ∧ start ≤ pos + bs.length := by
  induction bs generalizing pos with
  | nil => cases h
  | cons b bs ih =>
    rw [List.length_cons]
    rw [startsIn] at h
    split at h
    next =>
      rcases List.mem_cons.1 h with rfl | h
      · omega
      · have := ih h
        omega
    next =>
      have := ih h
      omega

theorem startsAfter_eq (pos : Nat) (cs : List Char) :
    startsAfter pos cs = startsIn pos (cs.flatMap String.utf8EncodeChar) := by
  induction cs generalizing pos with
  | nil => rfl
  | cons c cs ih =>
    rw [startsAfter, List.flatMap_cons, startsIn_append, String.length_utf8EncodeChar, ← ih]
    split
    next hc =>
      subst hc
      rfl
    next hc => rw [startsIn_of_not_mem (mt lineFeed_mem_utf8EncodeChar.1 hc), List.nil_append]

theorem takeWhile_startsIn (offset : Nat) (bs : List UInt8) :
    (startsIn 0 bs).takeWhile (· ≤ offset) = startsIn 0 (bs.take offset) := by
  have hsplit : startsIn 0 bs =
      startsIn 0 (bs.take offset) ++ startsIn (0 + (bs.take offset).length) (bs.drop offset) := by
    rw [← startsIn_append, List.take_append_drop]
  have hle : ∀ start ∈ startsIn 0 (bs.take offset), decide (start ≤ offset) = true := by
    intro start h
    have hbound := (mem_startsIn h).2
    have hlength := List.length_take_le offset bs
    exact decide_eq_true (by omega)
  have hgt : (startsIn (0 + (bs.take offset).length) (bs.drop offset)).takeWhile (· ≤ offset) = [] := by
    cases hs : startsIn (0 + (bs.take offset).length) (bs.drop offset) with
    | nil => rfl
    | cons start starts =>
      have hbound := mem_startsIn (hs ▸ List.mem_cons_self : start ∈ _)
      rw [List.length_take, List.length_drop] at hbound
      rw [List.takeWhile_cons, if_neg]
      simp only [decide_eq_true_eq]
      omega
  rw [hsplit, List.takeWhile_append_of_pos hle, hgt, List.append_nil]

/-- The lines up to an offset are those of the bytes before it. -/
theorem locate_eq (text : String) (offset : Nat) :
    (Source.ofString text).locate offset =
      ⟨((bytes text).take offset).count 10 + 1,
        offset - (startsIn 0 ((bytes text).take offset)).getLastD 0 + 1⟩ := by
  have hupTo : (LineIndex.ofChars text.toList).starts.takeWhile (· ≤ offset) =
      0 :: startsIn 0 ((bytes text).take offset) := by
    rw [ofChars, startsAfter_eq, ← bytes_eq, List.takeWhile_cons, if_pos (by simp), takeWhile_startsIn]
  change LineIndex.locate (LineIndex.ofChars text.toList) offset = _
  rw [LineIndex.locate, hupTo, List.length_cons, length_startsIn, List.getLastD_cons]

theorem locate_before (index : LineIndex) {offset offset' : Nat} (h : offset < offset') :
    (index.locate offset).before (index.locate offset') := by
  have hprefix : index.starts.takeWhile (· ≤ offset) <+: index.starts.takeWhile (· ≤ offset') := by
    induction index.starts with
    | nil => exact List.prefix_rfl
    | cons start starts ih =>
      by_cases hs : start ≤ offset
      · have hs' : start ≤ offset' := by omega
        simpa [hs, hs'] using ih
      · simp [hs]
  have hlast : (index.starts.takeWhile (· ≤ offset)).getLastD 0 ≤ offset := by
    rw [List.getLastD_eq_getLast?]
    cases hl : (index.starts.takeWhile (· ≤ offset)).getLast? with
    | none => exact Nat.zero_le _
    | some start => simpa using (List.mem_takeWhile_imp (List.mem_of_getLast? hl))
  rcases Nat.lt_or_ge (index.starts.takeWhile (· ≤ offset)).length (index.starts.takeWhile (· ≤ offset')).length
    with hlt | hge
  · exact .inl hlt
  · have hsame := hprefix.eq_of_length_le hge
    refine .inr ⟨congrArg List.length hsame, ?_⟩
    simp only [locate, ← hsame]
    omega

end LineIndex

/-! ### Bytes at a place -/

/-- Behind the part of a line that stands before an offset comes what stands at the offset. -/
theorem drop_line {offset start : Nat} {bs line : List UInt8} (hline : line.length + start = (bs.take offset).length) :
    (line ++ (bs.drop offset).takeWhile (· ≠ 10)).drop (offset - start) = (bs.drop offset).takeWhile (· ≠ 10) := by
  rw [List.length_take] at hline
  rcases Nat.le_total offset bs.length with h | h
  · exact List.drop_left' (by omega)
  · rw [List.drop_eq_nil_of_le h, List.takeWhile_nil, List.append_nil]
    exact List.drop_eq_nil_of_le (by omega)

theorem bytesAt_locate (text : String) (offset : Nat) :
    bytesAt text ((Source.ofString text).locate offset) = ((bytes text).drop offset).takeWhile (· ≠ 10) := by
  rw [bytesAt, LineIndex.locate_eq, Nat.add_sub_cancel, Nat.add_sub_cancel]
  generalize bytes text = bs
  have notFeed {xs : List UInt8} (h : 10 ∉ xs) : ∀ b ∈ xs, decide (b ≠ 10) = true :=
    fun b hb => decide_eq_true fun heq => h (heq ▸ hb)
  by_cases h : 10 ∈ bs.take offset
  · obtain ⟨lines, line, htake, hline⟩ := exists_last_line h
    have hbs : bs = lines ++ 10 :: (line ++ bs.drop offset) := by
      rw [← List.cons_append, ← List.append_assoc, ← htake, List.take_append_drop]
    have hstart : (LineIndex.startsIn 0 (bs.take offset)).getLastD 0 = lines.length + 1 := by
      rw [htake, LineIndex.startsIn_append, LineIndex.startsIn, if_pos rfl, LineIndex.startsIn_of_not_mem hline,
        List.getLastD_concat]
      omega
    have hcount : (bs.take offset).count 10 = (lines.splitOn 10).length := by
      rw [htake, length_splitOn]
      simp [List.count_eq_zero.2 hline]
    rw [hstart, hcount]
    nth_rewrite 1 [hbs]
    rw [List.splitOn_append_cons_self, List.getD_append_right _ _ _ _ (Nat.le_refl _), Nat.sub_self,
      getD_splitOn_zero, List.takeWhile_append_of_pos (notFeed hline)]
    exact drop_line (by rw [htake]; simp; omega)
  · rw [LineIndex.startsIn_of_not_mem h, List.count_eq_zero.2 h, List.getLastD_nil, getD_splitOn_zero]
    nth_rewrite 1 [← List.take_append_drop offset bs]
    rw [List.takeWhile_append_of_pos (notFeed h)]
    exact drop_line (Nat.add_zero _)

end LayerCheck
