import Mathlib
import LayerCheck.Proofs.Token.Scanning
import LayerCheck.Proofs.Token.Spans

/-! Reading one lexeme after another. A cursor stands at an offset of a text; each call goes past blanks and comments
and reads one lexeme, and at the end of the text it gives the end again and again. The lexemes of a text are those
that the calls give before the end. Nothing of the text is lost on the way: the lexemes are spelled as the text is,
between them stand blanks and comments only, and the spellings alone are read as the same tokens. -/
namespace LayerCheck

/-- An offset of a text and the text from there on. -/
structure Cursor where
  pos : Nat
  rest : List Char

namespace Cursor

def start (text : String) : Cursor := ⟨0, text.toList⟩

/-- Goes past blanks and comments; a comment ends before a newline. -/
def skip (pos : Nat) : List Char → Cursor
  | [] => ⟨pos, []⟩
  | c :: cs =>
    if isGap c then skip (pos + c.utf8Size) cs
    else if c = '#' then
      skip (pos + c.utf8Size + byteLength (cs.takeWhile (· != '\n'))) (cs.dropWhile (· != '\n'))
    else ⟨pos, c :: cs⟩
termination_by cs => cs.length
decreasing_by
  · exact Nat.lt_succ_self _
  · exact Nat.lt_succ_of_le (Token.length_dropWhile_le _ _)

/-- The next lexeme, and the cursor behind it. -/
def next (c : Cursor) : Lexeme × Cursor :=
  match skip c.pos c.rest with
  | ⟨pos, []⟩ => (⟨.eof, pos, pos⟩, ⟨pos, []⟩)
  | ⟨pos, ch :: cs⟩ =>
    let token := (Token.read ch cs).1
    let stop := pos + token.spelling.utf8ByteSize
    (⟨token, pos, stop⟩, ⟨stop, (Token.read ch cs).2⟩)

/-- The lexemes of a number of calls. -/
def calls : Nat → Cursor → List Lexeme
  | 0, _ => []
  | n + 1, c => c.next.1 :: calls n c.next.2

end Cursor

/-- What may stand before a token: blanks, and then a comment if the token ends it. -/
def Skipped (gap : List Char) (token : Token) : Prop :=
  ∃ blanks comment, gap = blanks ++ comment ∧ (∀ c ∈ blanks, c = ' ' ∨ c = '\t' ∨ c = '\r') ∧
    (comment = [] ∨ ∃ body, comment = '#' :: body ∧ '\n' ∉ body ∧ (token = .newline ∨ token = .eof))

namespace Skipped

theorem nil (token : Token) : Skipped [] token := ⟨[], [], rfl, by simp, .inl rfl⟩

theorem cons {c : Char} {gap : List Char} {token : Token} (h : Skipped gap token) (hc : isGap c = true) :
    Skipped (c :: gap) token := by
  obtain ⟨blanks, comment, rfl, hblanks, hcomment⟩ := h
  have hc : c = ' ' ∨ c = '\t' ∨ c = '\r' := by simpa [isGap, or_assoc] using hc
  exact ⟨c :: blanks, comment, rfl, List.forall_mem_cons.2 ⟨hc, hblanks⟩, hcomment⟩

theorem comment {body : List Char} {token : Token} (hbody : '\n' ∉ body)
    (htoken : token = .newline ∨ token = .eof) : Skipped ('#' :: body) token :=
  ⟨[], '#' :: body, rfl, by simp, .inr ⟨body, rfl, hbody, htoken⟩⟩

end Skipped

theorem Token.ne_eof_of_spelling {t : Token} (h : t.spelling.toList ≠ []) : t ≠ .eof := by
  rintro rfl
  exact h rfl

namespace Cursor

/-! ### One call -/

/-- The token that a text begins with, if no gap comes first. -/
def ahead : List Char → Token
  | [] => .eof
  | c :: cs => (Token.read c cs).1

/-- Behind a comment stands a newline or nothing, and neither is skipped. -/
theorem skip_behind_comment (pos : Nat) (cs : List Char) :
    skip pos (cs.dropWhile (· != '\n')) = ⟨pos, cs.dropWhile (· != '\n')⟩ ∧
      (ahead (cs.dropWhile (· != '\n')) = .newline ∨ ahead (cs.dropWhile (· != '\n')) = .eof) := by
  induction cs with
  | nil => exact ⟨by simp [skip], .inr rfl⟩
  | cons c cs ih =>
    by_cases hc : c = '\n'
    · subst hc
      exact ⟨by simp [skip, isGap], .inl rfl⟩
    · rw [List.dropWhile_cons_of_pos (by simpa using hc)]
      exact ih

/-- What is skipped is a gap before the token that comes next. -/
theorem exists_gap (pos : Nat) (cs : List Char) :
    ∃ gap, cs = gap ++ (skip pos cs).rest ∧ (skip pos cs).pos = pos + byteLength gap ∧
      Skipped gap (ahead (skip pos cs).rest) := by
  fun_induction skip pos cs with
  | case1 pos => exact ⟨[], rfl, rfl, .nil _⟩
  | case2 pos c cs hgap ih =>
    obtain ⟨gap, hcs, hpos, hskipped⟩ := ih
    refine ⟨c :: gap, congrArg _ hcs, ?_, hskipped.cons hgap⟩
    rw [hpos, byteLength, Nat.add_assoc]
  | case3 pos cs hgap ih =>
    -- Nothing more is skipped behind a comment, so the gap ends with it and the hypothesis is not needed.
    obtain ⟨hskip, hahead⟩ := skip_behind_comment (pos + '#'.utf8Size + byteLength (cs.takeWhile (· != '\n'))) cs
    rw [hskip]
    refine ⟨'#' :: cs.takeWhile (· != '\n'), ?_, ?_, .comment ?_ hahead⟩
    · rw [List.cons_append, List.takeWhile_append_dropWhile]
    · rw [byteLength, Nat.add_assoc]
    · intro hmem
      simpa using List.mem_takeWhile_imp hmem
  | case4 pos c cs hgap hcomment => exact ⟨[], rfl, rfl, .nil _⟩

/-- A call finds a gap and behind it the spelling of its lexeme. -/
theorem next_split (c : Cursor) :
    ∃ gap, c.rest = gap ++ (c.next.1.token.spelling.toList ++ c.next.2.rest) ∧ Skipped gap c.next.1.token ∧
      c.next.1.start = c.pos + byteLength gap ∧
      c.next.1.stop = c.next.1.start + byteLength c.next.1.token.spelling.toList ∧ c.next.2.pos = c.next.1.stop := by
  obtain ⟨gap, hrest, hpos, hskipped⟩ := exists_gap c.pos c.rest
  refine ⟨gap, ?_⟩
  unfold next
  split
  next pos hskip =>
    rw [hskip] at hrest hpos hskipped
    exact ⟨hrest, hskipped, hpos, rfl, rfl⟩
  next pos ch cs hskip =>
    rw [hskip] at hrest hpos hskipped
    exact ⟨by rw [hrest, Token.spelling_read], hskipped, hpos, congrArg (pos + ·) (utf8ByteSize_eq _), rfl⟩

/-- A call that finds nothing to read stands at the end. -/
theorem exists_end_of_next {c : Cursor} (h : c.next.1.token = .eof) :
    ∃ pos, c.next = (⟨.eof, pos, pos⟩, ⟨pos, []⟩) := by
  unfold next at h ⊢
  split
  next pos hskip => exact ⟨pos, rfl⟩
  next pos ch cs hskip =>
    rw [hskip] at h
    exact absurd h (Token.ne_eof_of_spelling (Token.spelling_read_ne_nil ch cs))

/-- At the end each call gives the end. -/
theorem calls_end (pos k : Nat) : calls k ⟨pos, []⟩ = List.replicate k ⟨.eof, pos, pos⟩ := by
  have hnext : next ⟨pos, []⟩ = (⟨.eof, pos, pos⟩, ⟨pos, []⟩) := by simp [next, skip]
  induction k with
  | zero => rfl
  | succ k ih => rw [calls, hnext, ih, List.replicate_succ]

/-! ### All calls up to the end -/

/-- The lexemes that the calls give before the end. -/
inductive Run : Cursor → List Lexeme → Prop
  | done {c : Cursor} (h : c.next.1.token = .eof) : Run c []
  | more {c : Cursor} {ls : List Lexeme} (h : c.next.1.token ≠ .eof) (rest : Run c.next.2 ls) : Run c (c.next.1 :: ls)

theorem Run.congr {c c' : Cursor} {ls : List Lexeme} (h : Run c' ls) (hnext : c.next = c'.next) : Run c ls := by
  cases h with
  | done h => exact .done (hnext ▸ h)
  | more h rest =>
    rw [← hnext] at h rest ⊢
    exact .more h rest

theorem run_scanFrom (pos : Nat) (cs : List Char) : Run ⟨pos, cs⟩ (scanFrom pos cs) := by
  fun_induction scanFrom pos cs with
  | case1 pos => exact .done (by simp [next, skip])
  | case2 pos c cs hgap ih => exact ih.congr (by rw [next, next, skip, if_pos hgap])
  | case3 pos cs comment hgap ih => exact ih.congr (by rw [next, next, skip, if_neg hgap, if_pos rfl])
  | case4 pos c cs hgap hcomment token stop ih =>
    have hnext : next ⟨pos, c :: cs⟩ = (⟨token, pos, stop⟩, ⟨stop, (Token.read c cs).2⟩) := by
      rw [next, skip, if_neg hgap, if_neg hcomment]
    have htoken : token ≠ .eof := Token.ne_eof_of_spelling (Token.spelling_read_ne_nil c cs)
    have hmore := Run.more (c := ⟨pos, c :: cs⟩) (by rw [hnext]; exact htoken) (by rw [hnext]; exact ih)
    rwa [hnext] at hmore

/-- A text from one offset to another. -/
def between (text : String) (i j : Nat) : String := String.Pos.Raw.extract text ⟨i⟩ ⟨j⟩

theorem utf8Len_eq (cs : List Char) : String.utf8Len cs = byteLength cs := by
  induction cs with
  | nil => rfl
  | cons c cs ih => rw [String.utf8Len_cons, ih, byteLength, Nat.add_comm]

section Pieces

variable {text : String} {before piece after : List Char}

theorem between_of_split (h : text.toList = before ++ piece ++ after) :
    between text (byteLength before) (byteLength before + byteLength piece) = String.ofList piece := by
  have htext : text = String.ofList (before ++ piece ++ after) := by rw [← h, String.ofList_toList]
  rw [between, htext, ← utf8Len_eq, ← utf8Len_eq]
  exact String.extract_of_valid before piece after

theorem isValid_of_split (h : text.toList = before ++ after) :
    String.Pos.Raw.IsValid text ⟨byteLength before⟩ := by
  refine String.Pos.Raw.isValid_iff_exists_append.2 ⟨String.ofList before, String.ofList after, ?_, ?_⟩
  · rw [← String.ofList_append, ← h, String.ofList_toList]
  · rw [String.rawEndPos_ofList, utf8Len_eq]

end Pieces

/-- A lexeme covers whole characters of the text, and they are its spelling. -/
structure Covers (text : String) (l : Lexeme) : Prop where
  start_valid : String.Pos.Raw.IsValid text ⟨l.start⟩
  stop_valid : String.Pos.Raw.IsValid text ⟨l.stop⟩
  stop_eq : l.stop = l.start + l.token.spelling.utf8ByteSize
  between_eq : between text l.start l.stop = l.token.spelling

/-- Between an offset and the start of a lexeme stands nothing but a gap. -/
def Follows (text : String) (i : Nat) (l : Lexeme) : Prop :=
  i ≤ l.start ∧ Skipped (between text i l.start).toList l.token

/-- The end of a text as a lexeme. -/
def endOf (text : String) : Lexeme := ⟨.eof, text.utf8ByteSize, text.utf8ByteSize⟩

/-- A cursor stands at a place of the text. -/
def At (text : String) (c : Cursor) : Prop := ∃ before, text.toList = before ++ c.rest ∧ c.pos = byteLength before

theorem at_start (text : String) : At text (start text) := ⟨[], rfl, rfl⟩

namespace At

variable {text : String} {c : Cursor}

theorem next (h : At text c) : At text c.next.2 ∧ Follows text c.pos c.next.1 ∧ Covers text c.next.1 := by
  obtain ⟨before, htext, hpos⟩ := h
  obtain ⟨gap, hrest, hskipped, hstart, hstop, hnext⟩ := c.next_split
  have hgap : text.toList = before ++ gap ++ (c.next.1.token.spelling.toList ++ c.next.2.rest) := by
    rw [htext, hrest, List.append_assoc]
  have hspelling := hgap.trans (List.append_assoc _ _ _).symm
  have hstart : c.next.1.start = byteLength (before ++ gap) := by rw [hstart, hpos, byteLength_append]
  have hstop' : c.next.1.stop = byteLength (before ++ gap ++ c.next.1.token.spelling.toList) := by
    rw [hstop, hstart, ← byteLength_append]
  refine ⟨⟨_, hspelling, hnext.trans hstop'⟩, ⟨?_, ?_⟩, ⟨?_, ?_, ?_, ?_⟩⟩
  · rw [hpos, hstart, byteLength_append]
    exact Nat.le_add_right _ _
  · rw [hpos, hstart, byteLength_append, between_of_split hgap, String.toList_ofList]
    exact hskipped
  · rw [hstart]
    exact isValid_of_split hgap
  · rw [hstop']
    exact isValid_of_split hspelling
  · rw [hstop, utf8ByteSize_eq]
  · rw [hstop, hstart, between_of_split hspelling, String.ofList_toList]

/-- The end that a call finds is the end of the text. -/
theorem next_eq_end (h : At text c) (heof : c.next.1.token = .eof) :
    c.next = (endOf text, ⟨text.utf8ByteSize, []⟩) := by
  obtain ⟨pos, hnext⟩ := exists_end_of_next heof
  obtain ⟨before, htext, hpos⟩ := h.next.1
  rw [hnext] at htext hpos
  have hsize : pos = text.utf8ByteSize := by
    rw [utf8ByteSize_eq, htext, List.append_nil]
    exact hpos
  rw [hnext, hsize]
  rfl

end At

namespace Run

variable {text : String} {c : Cursor} {ls : List Lexeme}

/-- However often it is called, a cursor gives its lexemes and then the end. -/
theorem calls_eq (h : Run c ls) (hat : At text c) (k : Nat) :
    c.calls (ls.length + k) = ls ++ List.replicate k (endOf text) := by
  induction h with
  | done h =>
    cases k with
    | zero => rfl
    | succ k =>
      rw [List.length_nil, Nat.zero_add, calls, hat.next_eq_end h, calls_end]
      rfl
  | @more c ls h rest ih => rw [List.length_cons, Nat.add_right_comm, calls, ih hat.next.1, List.cons_append]

/-- Each lexeme follows the one before it, and the end follows the last. -/
theorem follows (h : Run c ls) (hat : At text c) :
    List.Forall₂ (Follows text) (c.pos :: ls.map (·.stop)) (ls ++ [endOf text]) := by
  induction h with
  | done h =>
    have hfollows := hat.next.2.1
    rw [hat.next_eq_end h] at hfollows
    exact .cons hfollows .nil
  | @more c ls h rest ih =>
    obtain ⟨gap, -, -, -, -, hpos⟩ := c.next_split
    have hrest := ih hat.next.1
    rw [hpos] at hrest
    exact .cons hat.next.2.1 hrest

theorem covers (h : Run c ls) (hat : At text c) : ∀ l ∈ ls, Covers text l := by
  induction h with
  | done h => simp
  | more h rest ih => exact List.forall_mem_cons.2 ⟨hat.next.2.2, ih hat.next.1⟩

end Run

end Cursor

/-! ### Reading spellings again -/

namespace Token

/-- The text ends here or goes on with a space. -/
def Apart (rest : List Char) : Prop := rest = [] ∨ ∃ cs, rest = ' ' :: cs

/-- A token whose spelling is read as that token wherever the text ends or goes on with a space. -/
def ReadsBack (t : Token) : Prop := ∀ rest, Apart rest → scan (t.spelling.toList ++ rest) = t :: scan rest

theorem Apart.stops {p : Char → Bool} (hp : p ' ' = false) {rest : List Char} (h : Apart rest) : Stops p rest := by
  rcases h with rfl | ⟨cs, rfl⟩
  · exact .nil
  · exact .cons hp

/-- A mark is spelled with its first character, and read again where nothing can extend it. -/
theorem readMark_again (c : Char) (cs : List Char) :
    ∃ tail, (readMark c cs).1.spelling.toList = c :: tail ∧
      ∀ rest, Apart rest → readMark c (tail ++ rest) = ((readMark c cs).1, rest) := by
  fun_cases readMark c cs
  -- Marks of two characters, then any other character, then marks of one.
  case case11 => exact ⟨['>'], by simp [spelling, Punct.spelling], fun _ _ => rfl⟩
  case case13 | case15 | case17 | case19 => exact ⟨['='], by simp [spelling, BinaryOp.symbol], fun _ _ => rfl⟩
  case case21 => exact ⟨['&'], by simp [spelling, BinaryOp.symbol], fun _ _ => rfl⟩
  case case22 => exact ⟨['|'], by simp [spelling, BinaryOp.symbol], fun _ _ => rfl⟩
  case case23 =>
    refine ⟨[], by simp [spelling], ?_⟩
    rintro rest (rfl | ⟨ds, rfl⟩)
    · unfold readMark
      split
      case h_23 => rfl
      all_goals contradiction
    · unfold readMark
      split
      case h_23 => rfl
      case h_21 | h_22 => simp_all
      all_goals contradiction
  all_goals
    refine ⟨[], by simp [spelling, Punct.spelling, BinaryOp.symbol], ?_⟩
    rintro rest (rfl | ⟨ds, rfl⟩) <;> rfl

theorem readsBack_read {c : Char} (hgap : isGap c = false) (hcomment : c ≠ '#') (cs : List Char) :
    (read c cs).1.ReadsBack := by
  intro rest hrest
  unfold read
  split
  next hword =>
    rw [spelling_ofWord, String.toList_ofList]
    exact scan_word hword List.all_takeWhile (hrest.stops rfl)
  next hword =>
    split
    next hdigit =>
      rw [spelling, String.toList_ofList]
      have hdigits : (c :: cs.takeWhile Char.isDigit).all Char.isDigit = true := by simp [hdigit]
      exact scan_digits (List.cons_ne_nil _ _) hdigits (hrest.stops rfl)
    next hdigit =>
      obtain ⟨tail, hspelling, hread⟩ := readMark_again c cs
      rw [hspelling, List.cons_append, scan_mark hgap hcomment (by simpa using hword) (by simpa using hdigit),
        hread rest hrest]

theorem readsBack_of_mem_scanFrom {pos : Nat} {cs : List Char} {l : Lexeme} (h : l ∈ scanFrom pos cs) :
    l.token.ReadsBack := by
  fun_induction scanFrom pos cs with
  | case1 => cases h
  | case2 pos c cs hgap ih => exact ih h
  | case3 pos cs comment hgap ih => exact ih h
  | case4 pos c cs hgap hcomment token stop ih =>
    rcases List.mem_cons.1 h with rfl | h
    · exact readsBack_read (by simpa using hgap) hcomment cs
    · exact ih h

/-- Spellings with a space between them are read as their tokens. -/
theorem scan_intercalate {ts : List Token} (h : ∀ t ∈ ts, t.ReadsBack) :
    scan ([' '].intercalate (ts.map (·.spelling.toList))) = ts := by
  induction ts with
  | nil => exact scan_nil
  | cons t ts ih =>
    obtain ⟨ht, hts⟩ := List.forall_mem_cons.1 h
    cases ts with
    | nil => simpa [scan_nil] using ht [] (.inl rfl)
    | cons t' ts =>
      have hjoin := ht (' ' :: [' '].intercalate ((t' :: ts).map (·.spelling.toList))) (.inr ⟨_, rfl⟩)
      rw [scan_space, ih hts] at hjoin
      exact hjoin

end Token

/-- Some lexemes account for the whole of a text. Called again and again, a cursor gives them and then the end for ever.
Each covers its spelling, on whole characters and at least one; each follows the one before it, and the end the last,
with nothing but a gap between; and the spellings with a space between them are read as the same tokens. -/
structure Lossless (text : String) (ls : List Lexeme) : Prop where
  calls_eq : ∀ k, (Cursor.start text).calls (ls.length + k) = ls ++ List.replicate k (Cursor.endOf text)
  covers : ∀ l ∈ ls, l.token ≠ .eof ∧ l.start < l.stop ∧ Cursor.Covers text l
  follows : List.Forall₂ (Cursor.Follows text) (0 :: ls.map (·.stop)) (ls ++ [Cursor.endOf text])
  reads_back :
    (Source.ofString (" ".intercalate (ls.map (·.token.spelling)))).lexemes.map (·.token) = ls.map (·.token)

theorem reads_back_of_mem {ls : List Lexeme} (h : ∀ l ∈ ls, l.token.ReadsBack) :
    (Source.ofString (" ".intercalate (ls.map (·.token.spelling)))).lexemes.map (·.token) = ls.map (·.token) := by
  have hjoin := Token.scan_intercalate (List.forall_mem_map.2 h)
  rw [List.map_map] at hjoin
  change Token.scan (" ".intercalate (ls.map (·.token.spelling))).toList = ls.map (·.token)
  rw [String.toList_intercalate, List.map_map]
  exact hjoin

theorem Cursor.Covers.start_lt_stop {text : String} {l : Lexeme} (h : Covers text l)
    (hspelling : l.token.spelling.toList ≠ []) : l.start < l.stop := by
  rw [h.stop_eq, utf8ByteSize_eq]
  exact Nat.lt_add_of_pos_right (byteLength_pos hspelling)

/-- Nothing is lost in reading a text as lexemes. -/
theorem lexemes_lossless (text : String) : Lossless text (Source.ofString text).lexemes := by
  have hrun : Cursor.Run (Cursor.start text) (Source.ofString text).lexemes := Cursor.run_scanFrom 0 text.toList
  have hat := Cursor.at_start text
  refine ⟨hrun.calls_eq hat, fun l hl => ?_, hrun.follows hat, ?_⟩
  · have hspelling := spelling_ne_nil_of_mem_scanFrom hl
    have hcovers := hrun.covers hat l hl
    exact ⟨Token.ne_eof_of_spelling hspelling, hcovers.start_lt_stop hspelling, hcovers⟩
  · exact reads_back_of_mem fun l hl => Token.readsBack_of_mem_scanFrom hl

end LayerCheck
