import Mathlib
import LayerCheck.Token.Scan

/-! Scanning a text piece by piece. Where a piece ends before a character that cannot extend its last token, the
tokens of the text are those of the piece followed by those of the rest. -/
namespace LayerCheck

/-- A text does not begin with a character of some class. -/
def Stops (p : Char → Bool) (cs : List Char) : Prop := ∀ c, cs.head? = some c → p c = false

namespace Stops

variable {p q : Char → Bool} {c : Char} {cs : List Char}

theorem nil : Stops p [] := fun _ h => by cases h

theorem cons (h : p c = false) : Stops p (c :: cs) := by
  intro d hd
  cases hd
  exact h

theorem imp (h : Stops p cs) (hpq : ∀ c, q c = true → p c = true) : Stops q cs := by
  intro c hc
  have hp := h c hc
  cases hq : q c with
  | false => rfl
  | true => simp [hpq c hq] at hp

theorem takeWhile_eq_nil (h : Stops p cs) : cs.takeWhile p = [] := by
  cases cs with
  | nil => rfl
  | cons c cs => simp [h c rfl]

theorem dropWhile_eq_self (h : Stops p cs) : cs.dropWhile p = cs := by
  cases cs with
  | nil => rfl
  | cons c cs => simp [h c rfl]

theorem takeWhile_append (h : Stops p cs) {ds : List Char} (hd : ds.all p = true) :
    (ds ++ cs).takeWhile p = ds := by
  rw [List.takeWhile_append_of_pos (List.all_eq_true.1 hd), h.takeWhile_eq_nil, List.append_nil]

theorem dropWhile_append (h : Stops p cs) {ds : List Char} (hd : ds.all p = true) :
    (ds ++ cs).dropWhile p = cs := by
  rw [List.dropWhile_append_of_pos (List.all_eq_true.1 hd), h.dropWhile_eq_self]

end Stops

namespace Token

/-- The tokens of a text. -/
def scan (cs : List Char) : List Token := (scanFrom 0 cs).map (·.token)

theorem scanFrom_read {c : Char} (hgap : isGap c ≠ true) (hcomment : c ≠ '#') (pos : Nat) (cs : List Char) :
    scanFrom pos (c :: cs) =
      ⟨(read c cs).1, pos, pos + (read c cs).1.spelling.utf8ByteSize⟩ ::
        scanFrom (pos + (read c cs).1.spelling.utf8ByteSize) (read c cs).2 := by
  rw [scanFrom, if_neg hgap, if_neg hcomment]

theorem map_token_scanFrom (pos pos' : Nat) (cs : List Char) :
    (scanFrom pos cs).map (·.token) = (scanFrom pos' cs).map (·.token) := by
  fun_induction scanFrom pos cs generalizing pos' with
  | case1 => simp [scanFrom]
  | case2 pos c cs hgap ih =>
    rw [scanFrom, if_pos hgap]
    exact ih _
  | case3 pos cs comment hgap ih =>
    rw [scanFrom, if_neg hgap, if_pos rfl]
    exact ih _
  | case4 pos c cs hgap hcomment token stop ih =>
    rw [scanFrom_read hgap hcomment, List.map_cons, List.map_cons, ih]

theorem scan_nil : scan [] = [] := by simp [scan, scanFrom]

theorem scan_gap {c : Char} (h : isGap c = true) (cs : List Char) : scan (c :: cs) = scan cs := by
  rw [scan, scanFrom, if_pos h]
  exact map_token_scanFrom _ _ _

theorem scan_space (cs : List Char) : scan (' ' :: cs) = scan cs := scan_gap rfl cs

theorem scan_read {c : Char} (hgap : isGap c = false) (hcomment : c ≠ '#') (cs : List Char) :
    scan (c :: cs) = (read c cs).1 :: scan (read c cs).2 := by
  rw [scan, scanFrom_read (by simp [hgap]) hcomment, List.map_cons, map_token_scanFrom _ 0]
  rfl

/-! ### Words and digits -/

theorem not_gap_of_isIdentStart {c : Char} (h : isIdentStart c = true) : isGap c = false ∧ c ≠ '#' := by
  constructor
  · cases hg : isGap c with
    | false => rfl
    | true =>
      simp only [isGap, Bool.or_eq_true, beq_iff_eq] at hg
      rcases hg with (rfl | rfl) | rfl <;> simp [isIdentStart] at h
  · rintro rfl
    simp [isIdentStart] at h

theorem scan_word {c : Char} {cs rest : List Char} (hc : isIdentStart c = true) (hcs : cs.all isIdentRest = true)
    (hrest : Stops isIdentRest rest) : scan (c :: cs ++ rest) = ofWord (String.ofList (c :: cs)) :: scan rest := by
  obtain ⟨hgap, hcomment⟩ := not_gap_of_isIdentStart hc
  rw [List.cons_append, scan_read hgap hcomment, read, if_pos hc, hrest.takeWhile_append hcs,
    hrest.dropWhile_append hcs]

theorem not_word_of_isDigit {c : Char} (h : c.isDigit = true) :
    isGap c = false ∧ c ≠ '#' ∧ isIdentStart c = false ∧ isIdentRest c = true := by
  have hdigit : 48 ≤ c.toNat ∧ c.toNat ≤ 57 := Char.isDigit_iff_toNat.1 h
  refine ⟨?_, ?_, ?_, by simp [isIdentRest, Char.isAlphanum, h]⟩
  · cases hg : isGap c with
    | false => rfl
    | true =>
      simp only [isGap, Bool.or_eq_true, beq_iff_eq] at hg
      rcases hg with (rfl | rfl) | rfl <;> simp at h
  · rintro rfl
    simp at h
  · have hne : c ≠ '_' := by
      rintro rfl
      simp at h
    have hupper : ¬ 'A'.val ≤ c.val := fun hc => by
      have hle : 65 ≤ c.toNat := UInt32.le_iff_toNat_le.1 hc
      omega
    have hlower : ¬ 'a'.val ≤ c.val := fun hc => by
      have hle : 97 ≤ c.toNat := UInt32.le_iff_toNat_le.1 hc
      omega
    have halpha : c.isAlpha = false := Bool.or_eq_false_iff.2
      ⟨decide_eq_false fun hc => hupper hc.1, Bool.and_eq_false_iff.2 (.inl (decide_eq_false hlower))⟩
    simp [isIdentStart, hne, halpha]

theorem scan_digits {ds rest : List Char} (hne : ds ≠ []) (hds : ds.all Char.isDigit = true)
    (hrest : Stops Char.isDigit rest) : scan (ds ++ rest) = int (String.ofList ds) :: scan rest := by
  cases ds with
  | nil => exact absurd rfl hne
  | cons d ds =>
    obtain ⟨hd, hds⟩ := Bool.and_eq_true_iff.1 (List.all_cons ▸ hds)
    obtain ⟨hgap, hcomment, hstart, -⟩ := not_word_of_isDigit hd
    rw [List.cons_append, scan_read hgap hcomment, read, if_neg (by simp [hstart]), if_pos hd,
      hrest.takeWhile_append hds, hrest.dropWhile_append hds]

/-! ### Marks and operators -/

theorem scan_mark {c : Char} (hgap : isGap c = false) (hcomment : c ≠ '#') (hstart : isIdentStart c = false)
    (hdigit : c.isDigit = false) (cs : List Char) :
    scan (c :: cs) = (readMark c cs).1 :: scan (readMark c cs).2 := by
  rw [scan_read hgap hcomment, read, if_neg (by simp [hstart]), if_neg (by simp [hdigit])]

theorem scan_punct (c : Char) (p : Punct) (h : p.spelling = String.singleton c ∧ p ≠ .assign) (cs : List Char) :
    scan (c :: cs) = punct p :: scan cs := by
  obtain ⟨hc, hp⟩ := h
  have hlist := congrArg String.toList hc
  cases p <;> simp [Punct.spelling] at hlist hp <;> subst hlist <;> exact scan_mark rfl (by decide) rfl rfl cs

theorem scan_unknown {c : Char} (h : c = '$' ∨ c = '.') (cs : List Char) : scan (c :: cs) = unknown c :: scan cs := by
  rcases h with rfl | rfl <;> exact scan_mark rfl (by decide) rfl rfl cs

theorem scan_arrow (cs : List Char) : scan ('-' :: '>' :: cs) = punct .arrow :: scan cs :=
  scan_mark rfl (by decide) rfl rfl _

theorem scan_bar (cs : List Char) : scan ('|' :: ' ' :: cs) = unknown '|' :: scan cs := by
  rw [← scan_space cs]
  exact scan_mark rfl (by decide) rfl rfl _

theorem scan_operator (op : BinaryOp) (cs : List Char) :
    scan (op.symbol.toList ++ ' ' :: cs) = Token.op op :: scan cs := by
  rw [← scan_space cs]
  cases op <;> exact scan_mark rfl (by decide) rfl rfl _

theorem scan_minus {cs : List Char} (h : Stops (· == '>') cs) : scan ('-' :: cs) = Token.op .sub :: scan cs := by
  rw [scan_mark rfl (by decide) rfl rfl]
  cases cs with
  | nil => rfl
  | cons c cs =>
    have hc : c ≠ '>' := by simpa using h c rfl
    simp [readMark, hc]

theorem scan_bang {cs : List Char} (h : Stops (· == '=') cs) : scan ('!' :: cs) = bang :: scan cs := by
  rw [scan_mark rfl (by decide) rfl rfl]
  cases cs with
  | nil => rfl
  | cons c cs =>
    have hc : c ≠ '=' := by simpa using h c rfl
    simp [readMark, hc]

/-! ### Names -/

/-- Whether a text has the spelling of an identifier, as keywords have it too. -/
def isWord (x : String) : Bool :=
  match x.toList with
  | [] => false
  | c :: cs => isIdentStart c && cs.all isIdentRest

/-- The name without a dollar sign in front of it. -/
def bare (x : String) : String :=
  match x.toList with
  | '$' :: cs => String.ofList cs
  | _ => x

/-- The tokens of a name: those of the word that it is, behind a dollar sign if it has one. -/
def ofName (word : String → Token) (x : String) : List Token :=
  match x.toList with
  | '$' :: cs => [unknown '$', word (String.ofList cs)]
  | _ => [word x]

theorem scan_isWord {x : String} (h : isWord x = true) {rest : List Char} (hrest : Stops isIdentRest rest) :
    scan (x.toList ++ rest) = ofWord x :: scan rest := by
  unfold isWord at h
  split at h
  next => cases h
  next c cs hx =>
    obtain ⟨hc, hcs⟩ := Bool.and_eq_true_iff.1 h
    rw [hx, scan_word hc hcs hrest, ← hx, String.ofList_toList]

theorem scan_name {x : String} (h : isWord (bare x) = true) {rest : List Char} (hrest : Stops isIdentRest rest) :
    scan (x.toList ++ rest) = ofName ofWord x ++ scan rest := by
  unfold bare at h
  unfold ofName
  split at h
  next cs hx =>
    have hword := scan_isWord h hrest
    rw [String.toList_ofList] at hword
    rw [hx, List.cons_append, scan_unknown (.inl rfl), hword]
    rfl
  next =>
    rw [scan_isWord h hrest]
    rfl

/-- Whether a name can stand for a variable of a term: an identifier that is no keyword, with or without a
dollar sign in front of it. -/
def isName (x : String) : Bool := isWord (bare x) && (Keyword.ofSpelling? (bare x)).isNone

theorem scan_isName {x : String} (h : isName x = true) {rest : List Char} (hrest : Stops isIdentRest rest) :
    scan (x.toList ++ rest) = ofName ident x ++ scan rest := by
  obtain ⟨hword, hkeyword⟩ := Bool.and_eq_true_iff.1 h
  have hident : ofWord (bare x) = ident (bare x) := by
    rw [ofWord, Option.isNone_iff_eq_none.1 hkeyword]
  have hname : ofName ofWord x = ofName ident x := by
    unfold bare at hident
    unfold ofName
    split at hident <;> rw [hident]
  rw [scan_name hword hrest, hname]

end Token

end LayerCheck
