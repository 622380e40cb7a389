import Mathlib
import LayerCheck.Proofs.Text.Lines

/-! Places and offsets determine each other. The starts of lines are the offsets right behind the line feeds, in
increasing order, so the last of them up to an offset is where its line begins, whichever way it is searched for. The
place of an offset counts from there, and the offset can be read off its place. -/
namespace LayerCheck

/-- The offset at which the line of another one begins: that of the text, or the one right behind the last line feed
before it. -/
structure LineStart (bs : List UInt8) (offset start : Nat) : Prop where
  le : start ≤ offset
  begins : start = 0 ∨ ∃ i, start = i + 1 ∧ bs[i]? = some 10
  last : ∀ i, start ≤ i → i < offset → bs[i]? ≠ some 10

namespace LineIndex

/-- The offset of a place. -/
def offsetOf (index : LineIndex) (loc : Location) : Nat := index.starts.getD (loc.line - 1) 0 + (loc.col - 1)

/-- The outcome of a search for an offset in increasing starts: the index at which it stands, or the one at which it
would have to be put in. -/
inductive Finds (starts : List Nat) (offset : Nat) : Except Nat Nat → Prop
  | found {i : Nat} : starts[i]? = some offset → Finds starts offset (.ok i)
  | absent {i : Nat} : i ≤ starts.length → (∀ start ∈ starts.take i, start < offset) →
    (∀ start ∈ starts.drop i, offset < start) → Finds starts offset (.error i)

/-- The line, counted from zero, that a search leads to: that of the start found, or the one before the start that is
missing. -/
def lineOf : Except Nat Nat → Nat
  | .ok i => i
  | .error i => i - 1

/-! ### Starts in order -/

theorem mem_startsIn_iff {pos start : Nat} {bs : List UInt8} :
    start ∈ startsIn pos bs ↔ ∃ i, start = pos + i + 1 ∧ bs[i]? = some 10 := by
  induction bs generalizing pos with
  | nil => simp [startsIn]
  | cons b bs ih =>
    have hstep : (∃ i, start = pos + i + 1 ∧ (b :: bs)[i]? = some 10) ↔
        (start = pos + 1 ∧ b = 10) ∨ ∃ i, start = pos + 1 + i + 1 ∧ bs[i]? = some 10 := by
      constructor
      · rintro ⟨_ | i, hstart, hi⟩
        · exact .inl ⟨hstart, by simpa using hi⟩
        · exact .inr ⟨i, by omega, by simpa using hi⟩
      · rintro (⟨hstart, rfl⟩ | ⟨i, hstart, hi⟩)
        · exact ⟨0, hstart, rfl⟩
        · exact ⟨i + 1, by omega, by simpa using hi⟩
    rw [hstep, ← ih, startsIn]
    split
    next hb => simp [hb]
    next hb => simp [hb]

theorem pairwise_startsIn (pos : Nat) (bs : List UInt8) : (startsIn pos bs).Pairwise (· < ·) := by
  induction bs generalizing pos with
  | nil => exact .nil
  | cons b bs ih =>
    rw [startsIn]
    split
    · exact .cons (fun start h => (mem_startsIn h).1) (ih _)
    · exact ih _

theorem starts_ofChars (text : String) : (ofChars text.toList).starts = 0 :: startsIn 0 (bytes text) := by
  rw [ofChars, startsAfter_eq, bytes_eq]

theorem pairwise_starts (text : String) : (ofChars text.toList).starts.Pairwise (· < ·) := by
  rw [starts_ofChars]
  exact .cons (fun start h => (mem_startsIn h).1) (pairwise_startsIn 0 _)

theorem mem_starts {text : String} {start : Nat} :
    start ∈ (ofChars text.toList).starts ↔ start = 0 ∨ ∃ i, start = i + 1 ∧ (bytes text)[i]? = some 10 := by
  rw [starts_ofChars, List.mem_cons, mem_startsIn_iff]
  simp only [Nat.zero_add]

/-! ### The line of an offset -/

/-- An offset is placed by the last start up to it. -/
theorem locate_eq_of_split {index : LineIndex} {earlier later : List Nat} {start offset : Nat}
    (hsplit : index.starts = earlier ++ start :: later) (hearlier : ∀ s ∈ earlier, s ≤ offset) (hstart : start ≤ offset)
    (hlater : ∀ s ∈ later, offset < s) : index.locate offset = ⟨earlier.length + 1, offset - start + 1⟩ := by
  have hnone : later.takeWhile (· ≤ offset) = [] := by
    cases later with
    | nil => rfl
    | cons next later => simpa using hlater next List.mem_cons_self
  have hupTo : index.starts.takeWhile (· ≤ offset) = earlier ++ [start] := by
    rw [hsplit, List.takeWhile_append_of_pos fun s hs => decide_eq_true (hearlier s hs), List.takeWhile_cons,
      if_pos (decide_eq_true hstart), hnone]
  rw [locate, hupTo, List.length_append, List.length_singleton, List.getLastD_concat]

/-- Increasing starts, of which the first comes before an offset, are split by it. -/
theorem exists_split {first offset : Nat} {rest : List Nat} (hs : (first :: rest).Pairwise (· < ·))
    (hfirst : first ≤ offset) : ∃ earlier start later, first :: rest = earlier ++ start :: later ∧
      (∀ s ∈ earlier, s < start) ∧ start ≤ offset ∧ ∀ s ∈ later, offset < s := by
  induction rest generalizing first with
  | nil => exact ⟨[], first, [], rfl, List.forall_mem_nil _, hfirst, List.forall_mem_nil _⟩
  | cons second rest ih =>
    obtain ⟨hlt, hs'⟩ := List.pairwise_cons.1 hs
    rcases Nat.lt_or_ge offset second with hsecond | hsecond
    · refine ⟨[], first, second :: rest, rfl, List.forall_mem_nil _, hfirst, fun s hmem => ?_⟩
      rcases List.mem_cons.1 hmem with rfl | hmem
      · exact hsecond
      · exact Nat.lt_trans hsecond ((List.pairwise_cons.1 hs').1 s hmem)
    · obtain ⟨earlier, start, later, hsplit, hearlier, hstart, hlater⟩ := ih hs' hsecond
      refine ⟨first :: earlier, start, later, by rw [hsplit, List.cons_append], fun s hmem => ?_, hstart, hlater⟩
      rcases List.mem_cons.1 hmem with rfl | hmem
      · exact hlt start (by rw [hsplit]; simp)
      · exact hearlier s hmem

/-- The place of an offset counts from where its line begins, and its line is the one that begins there. -/
theorem exists_lineStart (text : String) (offset : Nat) : ∃ start, LineStart (bytes text) offset start ∧
    ((ofChars text.toList).locate offset).col = 1 + (offset - start) ∧
    (ofChars text.toList).starts[((ofChars text.toList).locate offset).line - 1]? = some start := by
  have hs := pairwise_starts text
  have hmem := @mem_starts text
  rw [starts_ofChars] at hs
  obtain ⟨earlier, start, later, hsplit, hearlier, hstart, hlater⟩ := exists_split hs (Nat.zero_le offset)
  rw [← starts_ofChars] at hsplit
  have hplace := locate_eq_of_split hsplit (fun s h => Nat.le_trans (Nat.le_of_lt (hearlier s h)) hstart) hstart hlater
  refine ⟨start, ⟨hstart, hmem.1 (by rw [hsplit]; simp), fun i hle hlt hi => ?_⟩, ?_, ?_⟩
  · -- the start behind a later line feed would lie between this one and the offset
    have hfeed : i + 1 ∈ earlier ++ start :: later := hsplit ▸ hmem.2 (.inr ⟨i, rfl, hi⟩)
    rcases List.mem_append.1 hfeed with h | h
    · have := hearlier _ h
      omega
    · rcases List.mem_cons.1 h with h | h
      · omega
      · have := hlater _ h
        omega
  · rw [hplace]
    exact Nat.add_comm _ _
  · rw [hplace, hsplit]
    simp

theorem offsetOf_locate (text : String) :
    Function.LeftInverse (ofChars text.toList).offsetOf (ofChars text.toList).locate := by
  intro offset
  obtain ⟨start, hstart, hcol, hline⟩ := exists_lineStart text offset
  rw [offsetOf, hcol, List.getD_eq_getElem?_getD, hline, Option.getD_some]
  have := hstart.le
  omega

/-- Whatever search finds an offset among increasing starts, or where it would stand, leads to its place. -/
theorem locate_of_finds {text : String} {offset : Nat} {r : Except Nat Nat}
    (h : Finds (ofChars text.toList).starts offset r) : (ofChars text.toList).locate offset =
      ⟨lineOf r + 1, offset - (ofChars text.toList).starts.getD (lineOf r) 0 + 1⟩ := by
  have hs := pairwise_starts text
  have hzero : 0 ∈ (ofChars text.toList).starts := mem_starts.2 (.inl rfl)
  generalize ofChars text.toList = index at h hs hzero
  -- the start of a line, at its index among the starts
  have place {i start : Nat} (hi : index.starts[i]? = some start) (hstart : start ≤ offset)
      (hlater : ∀ s ∈ index.starts.drop (i + 1), offset < s) :
      index.locate offset = ⟨i + 1, offset - index.starts.getD i 0 + 1⟩ := by
    obtain ⟨hlt, hget⟩ := List.getElem?_eq_some_iff.1 hi
    have hsplit : index.starts = index.starts.take i ++ start :: index.starts.drop (i + 1) := by
      rw [← hget, List.getElem_cons_drop, List.take_append_drop]
    have hearlier : ∀ s ∈ index.starts.take i, s ≤ offset := fun s hmem => by
      have hs' := hsplit ▸ hs
      exact Nat.le_trans (Nat.le_of_lt ((List.pairwise_append.1 hs').2.2 s hmem start List.mem_cons_self)) hstart
    rw [locate_eq_of_split hsplit hearlier hstart hlater, List.length_take_of_le (Nat.le_of_lt hlt),
      List.getD_eq_getElem?_getD, hi, Option.getD_some]
  cases h with
  | @found i hi =>
    refine place hi (Nat.le_refl _) fun s hmem => ?_
    obtain ⟨hlt, hget⟩ := List.getElem?_eq_some_iff.1 hi
    have hdrop : index.starts.drop i = offset :: index.starts.drop (i + 1) := by rw [← hget, List.getElem_cons_drop]
    exact (List.pairwise_cons.1 (hdrop ▸ hs.drop)).1 s hmem
  | @absent i hi hbefore hafter =>
    cases i with
    | zero => exact absurd (hafter 0 hzero) (Nat.not_lt_zero _)
    | succ i =>
      have hget : index.starts[i]? = some index.starts[i] := List.getElem?_eq_getElem hi
      refine place hget (Nat.le_of_lt (hbefore _ ?_)) hafter
      exact List.mem_take_iff_getElem.2 ⟨i, by omega, rfl⟩

/-- The place of an offset, in the text or past its end, is told by the line feeds before it, and the offset by the
place: the line is one more than their number, the column one more than the distance from the last of them or from the
start of the text. Places come in the order of their offsets, so no two offsets share one, and the starts of the lines
turn them back into offsets. Any search that finds an offset among the starts, or where it would stand, leads to the
same place. -/
theorem locate_corresponds (text : String) :
    (∀ offset, ((ofChars text.toList).locate offset).line = 1 + ((bytes text).take offset).count 10 ∧
      ∃ start, LineStart (bytes text) offset start ∧
        ((ofChars text.toList).locate offset).col = 1 + (offset - start)) ∧
    (∀ offset offset', offset < offset' →
      ((ofChars text.toList).locate offset).before ((ofChars text.toList).locate offset')) ∧
    Function.Injective (ofChars text.toList).locate ∧
    Function.LeftInverse (ofChars text.toList).offsetOf (ofChars text.toList).locate ∧
    ∀ offset r, Finds (ofChars text.toList).starts offset r → (ofChars text.toList).locate offset =
      ⟨lineOf r + 1, offset - (ofChars text.toList).starts.getD (lineOf r) 0 + 1⟩ := by
  refine ⟨fun offset => ⟨?_, ?_⟩, fun _ _ => locate_before _, (offsetOf_locate text).injective, offsetOf_locate text,
    fun _ _ => locate_of_finds⟩
  · rw [Nat.add_comm]
    exact congrArg Location.line (locate_eq text offset)
  · obtain ⟨start, hstart, hcol, -⟩ := exists_lineStart text offset
    exact ⟨start, hstart, hcol⟩

end LineIndex

end LayerCheck
