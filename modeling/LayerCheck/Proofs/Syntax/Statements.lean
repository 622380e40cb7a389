import Mathlib
import LayerCheck.Proofs.Syntax.Names

/-! Statements inside statements. The parts of a program are its statements and those in their blocks, however
deep; the names that they introduce are names of the program text. -/
namespace LayerCheck

namespace Tree

/-- A text with a given reading of its tree has a tree with that reading. -/
theorem exists_parse {α : Type} {text : String} {read : Tree → α} {a : α}
    (h : (Tree.parse text).toOption.map read = some a) : ∃ tree, Tree.parse text = .ok tree ∧ read tree = a := by
  cases hparse : Tree.parse text with
  | error e =>
    rw [hparse] at h
    cases h
  | ok tree =>
    rw [hparse] at h
    exact ⟨tree, rfl, Option.some.inj h⟩

end Tree

namespace Stmt

mutual

/-- The statement itself and every statement in its blocks. -/
def parts : Stmt → List Stmt
  | funDef loc name params body => funDef loc name params body :: partsAll body
  | branch loc c ts es => branch loc c ts es :: (partsAll ts ++ partsAll es)
  | loop loc c body => loop loc c body :: partsAll body
  | s => [s]

def partsAll : List Stmt → List Stmt
  | [] => []
  | s :: ss => parts s ++ partsAll ss

end

mutual

/-- The variables that a statement assigns to, functions that it defines apart. -/
def targets : Stmt → List String
  | assign _ x _ => [x]
  | branch _ _ ts es => targetsAll ts ++ targetsAll es
  | loop _ _ body => targetsAll body
  | _ => []

def targetsAll : List Stmt → List String
  | [] => []
  | s :: ss => targets s ++ targetsAll ss

end

/-- The names that a statement introduces by itself. -/
def introduced : Stmt → List String
  | assign _ x _ => [x]
  | funDef _ name params _ => name :: params
  | _ => []

/-- The names that a statement and its parts introduce have some property. -/
def Spelled (P : String → Prop) (ss : List Stmt) : Prop := ∀ s ∈ partsAll ss, ∀ x ∈ s.introduced, P x

variable {P : String → Prop} {x : String} {s : Stmt} {ss : List Stmt}

mutual

theorem parts_subset (s : Stmt) {s' : Stmt} (h : s' ∈ s.parts) : s'.parts ⊆ s.parts := by
  cases s with
  | funDef loc name params body =>
    rcases List.mem_cons.1 h with rfl | h
    · exact fun _ => id
    · exact fun _ hs => List.mem_cons_of_mem _ (partsAll_subset body h hs)
  | branch loc c ts es =>
    rcases List.mem_cons.1 h with rfl | h
    · exact fun _ => id
    · rcases List.mem_append.1 h with h | h
      · exact fun _ hs => List.mem_cons_of_mem _ (List.mem_append_left _ (partsAll_subset ts h hs))
      · exact fun _ hs => List.mem_cons_of_mem _ (List.mem_append_right _ (partsAll_subset es h hs))
  | loop loc c body =>
    rcases List.mem_cons.1 h with rfl | h
    · exact fun _ => id
    · exact fun _ hs => List.mem_cons_of_mem _ (partsAll_subset body h hs)
  | declare | ret | brk | cont | assign | expr | malformed =>
    rw [List.mem_singleton.1 h]
    exact fun _ => id

theorem partsAll_subset (ss : List Stmt) {s' : Stmt} (h : s' ∈ partsAll ss) : s'.parts ⊆ partsAll ss := by
  cases ss with
  | nil => cases h
  | cons s ss =>
    rcases List.mem_append.1 h with h | h
    · exact fun _ hs => List.mem_append_left _ (parts_subset s h hs)
    · exact fun _ hs => List.mem_append_right _ (partsAll_subset ss h hs)

end

theorem mem_parts_self (s : Stmt) : s ∈ s.parts := by
  cases s <;> exact List.mem_cons_self

theorem mem_partsAll_of_mem (h : s ∈ ss) : s ∈ partsAll ss := by
  induction ss with
  | nil => cases h
  | cons s' ss ih =>
    rcases List.mem_cons.1 h with rfl | h
    · exact List.mem_append_left _ (mem_parts_self s)
    · exact List.mem_append_right _ (ih h)

mutual

theorem exists_assign_of_mem_targets (s : Stmt) (h : x ∈ s.targets) : ∃ loc e, assign loc x e ∈ s.parts := by
  cases s with
  | assign loc y e =>
    rw [List.mem_singleton.1 h]
    exact ⟨loc, e, List.mem_singleton_self _⟩
  | branch loc c ts es =>
    rcases List.mem_append.1 h with h | h
    · obtain ⟨loc', e, he⟩ := exists_assign_of_mem_targetsAll ts h
      exact ⟨loc', e, List.mem_cons_of_mem _ (List.mem_append_left _ he)⟩
    · obtain ⟨loc', e, he⟩ := exists_assign_of_mem_targetsAll es h
      exact ⟨loc', e, List.mem_cons_of_mem _ (List.mem_append_right _ he)⟩
  | loop loc c body =>
    obtain ⟨loc', e, he⟩ := exists_assign_of_mem_targetsAll body h
    exact ⟨loc', e, List.mem_cons_of_mem _ he⟩
  | funDef | declare | ret | brk | cont | expr | malformed => cases h

theorem exists_assign_of_mem_targetsAll (ss : List Stmt) (h : x ∈ targetsAll ss) :
    ∃ loc e, assign loc x e ∈ partsAll ss := by
  cases ss with
  | nil => cases h
  | cons s ss =>
    rcases List.mem_append.1 h with h | h
    · obtain ⟨loc, e, he⟩ := exists_assign_of_mem_targets s h
      exact ⟨loc, e, List.mem_append_left _ he⟩
    · obtain ⟨loc, e, he⟩ := exists_assign_of_mem_targetsAll ss h
      exact ⟨loc, e, List.mem_append_right _ he⟩

end

/-! ### Statements of a tree -/

theorem spelled_cons : Spelled P (s :: ss) ↔ Spelled P [s] ∧ Spelled P ss := by
  simp [Spelled, partsAll, or_imp, forall_and]

theorem spelled_branch {loc : Location} {c : Expr} {ts es : List Stmt} :
    Spelled P [branch loc c ts es] ↔ Spelled P ts ∧ Spelled P es := by
  simp [Spelled, partsAll, parts, introduced, or_imp, forall_and]

theorem spelled_loop {loc : Location} {c : Expr} : Spelled P [loop loc c ss] ↔ Spelled P ss := by
  simp [Spelled, partsAll, parts, introduced]

theorem spelled_funDef {loc : Location} {name : String} {params : List String} :
    Spelled P [funDef loc name params ss] ↔ (∀ x ∈ name :: params, P x) ∧ Spelled P ss := by
  simp [Spelled, partsAll, parts, introduced]

theorem spelled_of_parts (h : s.parts = [s]) (hx : ∀ x ∈ s.introduced, P x) : Spelled P [s] := by
  simpa [Spelled, partsAll, h] using hx

mutual

theorem spelled_ofNode (kind : NodeKind) (loc : Location) (ts : List Tree) (h : ∀ t ∈ ts, Tree.Named P t) :
    Spelled P [ofNode kind loc ts] := by
  have plain {s : Stmt} (hp : s.parts = [s]) (hi : s.introduced = []) : Spelled P [s] :=
    spelled_of_parts hp (by simp [hi])
  unfold ofNode
  split
  case h_2 =>
    split
    next name params body hp =>
      obtain ⟨hnames, hbody⟩ := spelled_funParts ts h hp
      exact spelled_funDef.2 ⟨hnames, hbody⟩
    next => exact plain rfl rfl
  case h_3 k₁ l₁ cs₁ k₂ l₂ cs₂ rest =>
    have hthen := spelled_ofNodes cs₂ (Tree.named_node.1 (h (.node k₂ l₂ cs₂) (by simp)))
    split
    next => exact spelled_branch.2 ⟨hthen, fun s hs => (by cases hs)⟩
    next k₃ l₃ cs₃ _ =>
      have hcs : ∀ t ∈ cs₃, Tree.Named P t := Tree.named_node.1 (h (.node k₃ l₃ cs₃) (by simp))
      refine spelled_branch.2 ⟨hthen, ?_⟩
      split
      next =>
        split
        next => exact spelled_ofNodes cs₃ hcs
        next => exact spelled_ofNode k₃ l₃ cs₃ hcs
      next => exact spelled_ofNodes cs₃ hcs
    next => exact plain rfl rfl
  case h_4 k₁ l₁ cs₁ k₂ l₂ cs₂ rest =>
    exact spelled_loop.2 (spelled_ofNodes cs₂ (Tree.named_node.1 (h (.node k₂ l₂ cs₂) (by simp))))
  case h_9 target _ _ _ _ _ =>
    refine spelled_of_parts rfl fun x hx => ?_
    rw [List.mem_singleton.1 hx]
    exact Tree.named_leaf.1 (Tree.named_node.1 (h _ List.mem_cons_self) _ List.mem_cons_self) rfl
  case h_1 => split <;> exact plain rfl rfl
  all_goals exact plain rfl rfl
termination_by (sizeOf ts, 1)

theorem spelled_funParts (ts : List Tree) (h : ∀ t ∈ ts, Tree.Named P t) {names : List String} {body : List Stmt}
    (hp : funParts ts = some (names, body)) : (∀ x ∈ names, P x) ∧ Spelled P body := by
  unfold funParts at hp
  split at hp
  next loc body =>
    cases hp
    exact ⟨fun x hx => (by cases hx), spelled_ofNodes body (Tree.named_node.1 (h _ List.mem_cons_self))⟩
  next loc name rest =>
    obtain ⟨⟨names, body⟩, hrest, heq⟩ := Option.map_eq_some_iff.1 hp
    cases heq
    obtain ⟨hnames, hbody⟩ := spelled_funParts rest (fun t ht => h t (List.mem_cons_of_mem _ ht)) hrest
    refine ⟨fun x hx => ?_, hbody⟩
    rcases List.mem_cons.1 hx with rfl | hx
    · exact Tree.named_leaf.1 (h _ List.mem_cons_self) rfl
    · exact hnames x hx
  next => cases hp
termination_by (sizeOf ts, 0)

theorem spelled_ofNodes (ts : List Tree) (h : ∀ t ∈ ts, Tree.Named P t) : Spelled P (ofNodes ts) := by
  match ts with
  | [] =>
    rw [ofNodes]
    exact fun s hs => (by cases hs)
  | .leaf .. :: ts =>
    rw [ofNodes]
    exact spelled_ofNodes ts fun t ht => h t (List.mem_cons_of_mem _ ht)
  | .node kind loc cs :: ts =>
    rw [ofNodes, spelled_cons]
    exact ⟨spelled_ofNode kind loc cs (Tree.named_node.1 (h _ List.mem_cons_self)),
      spelled_ofNodes ts fun t ht => h t (List.mem_cons_of_mem _ ht)⟩
termination_by (sizeOf ts, 0)

end

/-- The names that the statements of a tree introduce, however deep, are names of the tree. -/
theorem named_introduced {tree : Tree} (h : tree.Named P) (hs : s ∈ partsAll tree.statements)
    (hx : x ∈ s.introduced) : P x :=
  spelled_ofNodes tree.children h.children s hs x hx

end Stmt

end LayerCheck
