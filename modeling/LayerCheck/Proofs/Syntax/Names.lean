import Mathlib
import LayerCheck.Program.Declarations
import LayerCheck.Proofs.Syntax.Tokens

/-! Names in trees come from identifiers in the text. Whatever holds of every identifier among the lexemes
holds of every name in a tree that is read from them; an identifier begins with a letter or an
underscore, and so does every name in a program. -/
namespace LayerCheck

/-! ### Names of a tree -/

namespace Tree

variable {P : String → Prop}

/-- Every name in a tree has a property. -/
def Named (P : String → Prop) (t : Tree) : Prop := ∀ loc x, leaf .name loc x ∈ t.leaves → P x

theorem mem_leavesAll {ts : List Tree} {l : Tree} : l ∈ leavesAll ts ↔ ∃ t ∈ ts, l ∈ t.leaves := by
  induction ts with
  | nil => simp [leavesAll]
  | cons t ts ih => simp [leavesAll, ih]

theorem named_node {kind : NodeKind} {loc : Location} {ts : List Tree} :
    Named P (node kind loc ts) ↔ ∀ t ∈ ts, Named P t := by
  simp only [Named, leaves, mem_leavesAll]
  exact ⟨fun h t ht loc x hx => h loc x ⟨t, ht, hx⟩, fun h loc x ⟨t, ht, hx⟩ => h t ht loc x hx⟩

theorem named_leaf {kind : LeafKind} {loc : Location} {text : String} :
    Named P (leaf kind loc text) ↔ (kind = .name → P text) := by
  simp only [Named, leaves, List.mem_singleton]
  constructor
  · rintro h rfl
    exact h loc text rfl
  · rintro h loc x ⟨⟩
    exact h rfl

theorem Named.children {t : Tree} (h : Named P t) : ∀ c ∈ t.children, Named P c := by
  cases t with
  | node kind loc ts => exact named_node.1 h
  | leaf kind loc text => exact fun c hc => (by cases hc)

mutual

/-- The tokens below a node of a tree are tokens of the tree. -/
theorem leaves_subset_of_mem_nodes {t t' : Tree} (h : t' ∈ t.nodes) : t'.leaves ⊆ t.leaves := by
  cases t with
  | leaf kind loc text => cases h
  | node kind loc ts =>
    rcases List.mem_cons.1 h with rfl | h
    · exact fun _ => id
    · exact leaves_subset_of_mem_nodesAll h

theorem leaves_subset_of_mem_nodesAll {ts : List Tree} {t' : Tree} (h : t' ∈ nodesAll ts) :
    t'.leaves ⊆ leavesAll ts := by
  match ts with
  | [] => cases h
  | t :: ts =>
    rcases List.mem_append.1 h with h | h
    · exact fun l hl => List.mem_append_left _ (leaves_subset_of_mem_nodes h hl)
    · exact fun l hl => List.mem_append_right _ (leaves_subset_of_mem_nodesAll h hl)

end

theorem Named.nodes {t t' : Tree} (h : Named P t) (ht' : t' ∈ t.nodes) : Named P t' :=
  fun loc x hx => h loc x (leaves_subset_of_mem_nodes ht' hx)

end Tree

/-! ### Names read from lexemes -/

namespace Parse

open LayerCheck.Tree

variable {P : String → Prop} {src : Source}

/-- Every identifier among some lexemes has a property. -/
def Spelled (P : String → Prop) (ts : List Lexeme) : Prop := ∀ t ∈ ts, ∀ x, t.token = .ident x → P x

theorem program_named (h : Spelled P src.lexemes) {t : Tree} (hr : program src = .ok t) : Named P t := by
  obtain ⟨picked, hp, hsub⟩ := exists_lexemes_of_program hr
  intro loc x hx
  obtain ⟨t, ht, hshow⟩ := exists_lexeme_of_mem hp hx
  cases hshow
  exact h _ (hsub.subset ht) x rfl

end Parse

/-! ### Identifiers -/

/-- A name begins the way identifiers do. -/
def IdentLike (x : String) : Prop := ∃ c cs, x = String.ofList (c :: cs) ∧ isIdentStart c = true

theorem Token.readMark_ne_ident {c : Char} {cs : List Char} {x : String} : (readMark c cs).1 ≠ .ident x := by
  unfold readMark
  split <;> exact Token.noConfusion

theorem Token.identLike_of_read {c : Char} {cs : List Char} {x : String} (h : (read c cs).1 = .ident x) :
    IdentLike x := by
  unfold read at h
  split at h
  next hc =>
    dsimp only [ofWord] at h
    split at h
    next => cases h
    next =>
      cases h
      exact ⟨c, _, rfl, hc⟩
  next =>
    split at h
    next => cases h
    next => exact absurd h readMark_ne_ident

theorem spelled_scanFrom (pos : Nat) (cs : List Char) : Parse.Spelled IdentLike (scanFrom pos cs) := by
  fun_induction scanFrom pos cs with
  | case1 pos => exact fun t ht => (by cases ht)
  | case2 pos c cs hgap ih => exact ih
  | case3 pos cs hgap comment ih => exact ih
  | case4 pos c cs hgap hcomment token stop ih =>
    intro t ht x hx
    rcases List.mem_cons.1 ht with rfl | ht
    · exact Token.identLike_of_read hx
    · exact ih t ht x hx

/-- Every name in a program that is read from a text begins the way identifiers do. -/
theorem Tree.parse_named {text : String} {t : Tree} (h : Tree.parse text = .ok t) : Named IdentLike t :=
  Parse.program_named (spelled_scanFrom 0 _) h

/-! ### Names in declarations -/

section

variable {P : String → Prop}

theorem Tree.named_identifier {t : Tree} (h : Named P t) {d : Declaration} (hd : d ∈ t.declarations) :
    P d.identifier := by
  obtain ⟨t', ht', hd⟩ := List.mem_filterMap.1 hd
  have h' := h.nodes ht'
  unfold Declaration.ofTree? at hd
  split at hd
  next =>
    unfold Declaration.ofChildren? at hd
    split at hd
    next =>
      cases hd
      exact named_leaf.1 (named_node.1 (named_node.1 h' _ List.mem_cons_self) _ List.mem_cons_self) rfl
    next => cases hd
  next => cases hd

end

end LayerCheck
