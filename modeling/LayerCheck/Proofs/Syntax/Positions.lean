import Mathlib
import LayerCheck.Proofs.Syntax.Statements
import LayerCheck.Proofs.Term.Readable
import LayerCheck.Proofs.Text.Lines
import LayerCheck.Proofs.Token.Spans

/-! Places in a parsed tree are places in its text. The tokens of a tree, from left to right, stand at later and
later places, and at the place of a token the text has the bytes of the token. -/
namespace LayerCheck

theorem lineFeed_mem_bytes {s : String} : 10 ∈ bytes s ↔ '\n' ∈ s.toList := by
  simp [bytes_eq, lineFeed_mem_utf8EncodeChar]

theorem Token.newline_not_mem_of_isWord {x : String} (h : isWord x = true) : '\n' ∉ x.toList := by
  unfold isWord at h
  split at h
  next => cases h
  next c cs hx =>
    obtain ⟨hc, hcs⟩ := Bool.and_eq_true_iff.1 h
    rw [hx]
    intro hmem
    rcases List.mem_cons.1 hmem with rfl | hmem
    · cases hc
    · cases List.all_eq_true.1 hcs _ hmem

namespace Parse

variable {src : Source} {t : Lexeme} {l : Tree}

theorem Shows.loc_eq (h : Shows src t l) : l.loc = src.locate t.start := by
  cases h <;> rfl

/-- A token that is no annotation text has the spelling of its lexeme, which stays in one line. -/
theorem Shows.spelling {kind : LeafKind} {loc : Location} {word : String} (h : Shows src t (.leaf kind loc word))
    (ht : t.token.Scanned) (hk : kind ≠ .annotationText) : word = t.token.spelling ∧ 10 ∉ bytes word := by
  rw [lineFeed_mem_bytes]
  cases h with
  | name | layerName => exact ⟨rfl, Token.newline_not_mem_of_isWord ht.1⟩
  | int => exact ⟨rfl, fun hmem => by cases List.all_eq_true.1 ht _ hmem⟩
  | operator op => exact ⟨rfl, by cases op <;> decide⟩
  | bang => exact ⟨rfl, by decide⟩
  | freeText => exact absurd rfl hk

theorem pairwise_loc {picked : List Lexeme} {ls : List Tree} (h : List.Forall₂ (Shows src) picked ls)
    (hp : picked.Pairwise fun t t' => t.start < t'.start) : ls.Pairwise fun l l' => l.loc.before l'.loc := by
  induction h with
  | nil => exact .nil
  | cons ht hrest ih =>
    obtain ⟨hfirst, hp⟩ := List.pairwise_cons.1 hp
    refine .cons (fun l' hl' => ?_) (ih hp)
    obtain ⟨t', hmem, ht'⟩ := exists_lexeme_of_mem hrest hl'
    rw [ht.loc_eq, ht'.loc_eq]
    exact LineIndex.locate_before _ (hfirst t' hmem)

end Parse

/-- The tokens of a parsed tree stand in the order of their places, and each of them but the text of an annotation
stands in the source at its place. -/
theorem Tree.leaves_in_place {source : String} {tree : Tree} (h : Tree.parse source = .ok tree) :
    (tree.leaves.Pairwise fun l l' => l.loc.before l'.loc) ∧
      ∀ kind loc word, .leaf kind loc word ∈ tree.leaves → kind ≠ .annotationText →
        0 < loc.line ∧ 0 < loc.col ∧ bytes word <+: bytesAt source loc := by
  obtain ⟨picked, hp, hsub⟩ := Parse.exists_lexemes_of_program h
  refine ⟨Parse.pairwise_loc hp ((pairwise_start_scanFrom 0 _).sublist hsub), fun kind loc word hmem hk => ?_⟩
  obtain ⟨t, ht, hshow⟩ := Parse.exists_lexeme_of_mem hp hmem
  have hlexeme := hsub.subset ht
  obtain ⟨rfl, hline⟩ := hshow.spelling (Token.scanned_of_mem_scanFrom 0 _ t hlexeme) hk
  have hloc : loc = (Source.ofString source).locate t.start := hshow.loc_eq
  refine ⟨?_, ?_, ?_⟩
  · rw [hloc, LineIndex.locate_eq]
    exact Nat.succ_pos _
  · rw [hloc, LineIndex.locate_eq]
    exact Nat.succ_pos _
  · rw [hloc, bytesAt_locate]
    obtain ⟨rest, hrest⟩ := bytes_spelling_prefix hlexeme
    have hkeep : ∀ b ∈ bytes t.token.spelling, decide (b ≠ 10) = true :=
      fun b hb => decide_eq_true fun heq => hline (heq ▸ hb)
    rw [← hrest, List.takeWhile_append_of_pos hkeep]
    exact List.prefix_append _ _

/-- A call over two lines, with characters of two bytes in a declaration and in a comment. -/
def spreadText : String := "a : t : é é\nb = f(-a, # é\n  7) <= a\n"

theorem leaves_spreadText :
    (Tree.parse spreadText).toOption.map Tree.leaves =
      some [.leaf .name ⟨1, 1⟩ "a", .leaf .layerName ⟨1, 5⟩ "t", .leaf .annotationText ⟨1, 9⟩ "é é",
        .leaf .name ⟨2, 1⟩ "b", .leaf .name ⟨2, 5⟩ "f", .leaf .operator ⟨2, 7⟩ "-", .leaf .name ⟨2, 8⟩ "a",
        .leaf .int ⟨3, 3⟩ "7", .leaf .operator ⟨3, 6⟩ "<=", .leaf .name ⟨3, 9⟩ "a"] := by
  cbv

theorem spreadText_in_place :
    ∃ tree, Tree.parse spreadText = .ok tree ∧ tree.leaves.length = 10 ∧
      (tree.leaves.Pairwise fun l l' => l.loc.before l'.loc) ∧
      .leaf .operator ⟨3, 6⟩ "<=" ∈ tree.leaves ∧ bytes "<=" <+: bytesAt spreadText ⟨3, 6⟩ := by
  obtain ⟨tree, hparse, hleaves⟩ := Tree.exists_parse leaves_spreadText
  obtain ⟨hordered, hplaced⟩ := Tree.leaves_in_place hparse
  have hmem : .leaf .operator ⟨3, 6⟩ "<=" ∈ tree.leaves := by simp [hleaves]
  exact ⟨tree, hparse, by rw [hleaves]; rfl, hordered, hmem, (hplaced _ _ _ hmem LeafKind.noConfusion).2.2⟩

end LayerCheck
