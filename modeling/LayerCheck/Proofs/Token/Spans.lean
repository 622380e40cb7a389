import Mathlib
import LayerCheck.Proofs.Text.Bytes
import LayerCheck.Token.Scan

/-! Where lexemes stand. The spelling of each lexeme stands in the text at its offset, and the lexemes come in the
order of their offsets. -/
namespace LayerCheck

theorem Keyword.spelling_of_ofSpelling? {word : String} {k : Keyword} (h : ofSpelling? word = some k) :
    k.spelling = word := by
  simpa using List.find?_some h

namespace Token

theorem spelling_ofWord (word : String) : (ofWord word).spelling = word := by
  unfold ofWord
  split
  next k hk => exact Keyword.spelling_of_ofSpelling? hk
  next => rfl

theorem spelling_readMark (c : Char) (cs : List Char) :
    (readMark c cs).1.spelling.toList ++ (readMark c cs).2 = c :: cs := by
  unfold readMark
  split <;> simp [spelling, Punct.spelling, BinaryOp.symbol]

theorem spelling_read (c : Char) (cs : List Char) : (read c cs).1.spelling.toList ++ (read c cs).2 = c :: cs := by
  unfold read
  split
  next => simp [spelling_ofWord, List.takeWhile_append_dropWhile]
  next =>
    split
    next => simp [spelling, List.takeWhile_append_dropWhile]
    next => exact spelling_readMark c cs

theorem spelling_read_ne_nil (c : Char) (cs : List Char) : (read c cs).1.spelling.toList ≠ [] := by
  intro h
  have hlength := congrArg List.length (spelling_read c cs)
  have := read_length c cs
  simp only [h, List.nil_append, List.length_cons] at hlength
  omega

end Token

theorem length_flatMap_utf8EncodeChar (cs : List Char) :
    (cs.flatMap String.utf8EncodeChar).length = byteLength cs := by
  induction cs with
  | nil => rfl
  | cons c cs ih => rw [List.flatMap_cons, List.length_append, String.length_utf8EncodeChar, ih, byteLength]

theorem utf8ByteSize_eq (s : String) : s.utf8ByteSize = byteLength s.toList := by
  rw [← length_flatMap_utf8EncodeChar, ← bytes_eq]
  rfl

theorem byteLength_pos {cs : List Char} (h : cs ≠ []) : 0 < byteLength cs := by
  cases cs with
  | nil => exact absurd rfl h
  | cons c cs => exact Nat.add_pos_left c.utf8Size_pos _

/-- The spelling of each lexeme stands in the text at its offset. -/
theorem exists_split_of_mem_scanFrom {pos : Nat} {cs : List Char} {l : Lexeme} (h : l ∈ scanFrom pos cs) :
    ∃ before after, cs = before ++ l.token.spelling.toList ++ after ∧ l.start = pos + byteLength before := by
  fun_induction scanFrom pos cs with
  | case1 => cases h
  | case2 pos c cs hgap ih =>
    obtain ⟨before, after, rfl, hstart⟩ := ih h
    exact ⟨c :: before, after, by simp, by rw [hstart, byteLength]; omega⟩
  | case3 pos cs comment hgap ih =>
    obtain ⟨before, after, hcs, hstart⟩ := ih h
    refine ⟨'#' :: (comment ++ before), after, ?_, ?_⟩
    · rw [List.cons_append, List.cons_append, List.append_assoc comment, List.append_assoc comment, ← hcs,
        List.takeWhile_append_dropWhile]
    · rw [hstart, byteLength, byteLength_append]
      omega
  | case4 pos c cs hgap hcomment token stop ih =>
    rcases List.mem_cons.1 h with rfl | h
    · exact ⟨[], (Token.read c cs).2, (Token.spelling_read c cs).symm, rfl⟩
    · obtain ⟨before, after, hcs, hstart⟩ := ih h
      refine ⟨token.spelling.toList ++ before, after, ?_, ?_⟩
      · rw [List.append_assoc token.spelling.toList, List.append_assoc token.spelling.toList, ← hcs]
        exact (Token.spelling_read c cs).symm
      · rw [hstart, byteLength_append, ← utf8ByteSize_eq]
        omega

theorem spelling_ne_nil_of_mem_scanFrom {pos : Nat} {cs : List Char} {l : Lexeme} (h : l ∈ scanFrom pos cs) :
    l.token.spelling.toList ≠ [] := by
  fun_induction scanFrom pos cs with
  | case1 => cases h
  | case2 pos c cs hgap ih => exact ih h
  | case3 pos cs comment hgap ih => exact ih h
  | case4 pos c cs hgap hcomment token stop ih =>
    rcases List.mem_cons.1 h with rfl | h
    · exact Token.spelling_read_ne_nil c cs
    · exact ih h

/-- Lexemes come in the order of their offsets. -/
theorem pairwise_start_scanFrom (pos : Nat) (cs : List Char) :
    (scanFrom pos cs).Pairwise fun l l' => l.start < l'.start := by
  fun_induction scanFrom pos cs with
  | case1 => exact .nil
  | case2 pos c cs hgap ih => exact ih
  | case3 pos cs comment hgap ih => exact ih
  | case4 pos c cs hgap hcomment token stop ih =>
    refine .cons (fun l hl => ?_) ih
    obtain ⟨before, after, -, hstart⟩ := exists_split_of_mem_scanFrom hl
    have hpos := byteLength_pos (Token.spelling_read_ne_nil c cs)
    rw [← utf8ByteSize_eq] at hpos
    exact Nat.lt_of_lt_of_le (Nat.lt_add_of_pos_right hpos) (hstart ▸ Nat.le_add_right _ _)

/-- The bytes of a lexeme's spelling stand at its offset. -/
theorem bytes_spelling_prefix {text : String} {l : Lexeme} (h : l ∈ (Source.ofString text).lexemes) :
    bytes l.token.spelling <+: (bytes text).drop l.start := by
  obtain ⟨before, after, hcs, hstart⟩ := exists_split_of_mem_scanFrom h
  have hcs : text.toList = before ++ l.token.spelling.toList ++ after := hcs
  rw [bytes_eq, bytes_eq, hcs, hstart, Nat.zero_add, List.append_assoc, List.flatMap_append,
    ← length_flatMap_utf8EncodeChar, List.drop_left, List.flatMap_append]
  exact List.prefix_append _ _

end LayerCheck
