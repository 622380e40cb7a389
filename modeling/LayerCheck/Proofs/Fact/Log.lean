import Mathlib
import LayerCheck.Proofs.Fact.Rollback
import LayerCheck.Proofs.Name.Map

/-! The table of facts as a log. Whatever is added, marked and taken back, the table answers as a list of facts would
to whose end facts are put, and from whose end they are taken. -/
namespace LayerCheck

namespace NameMap

variable {α : Type} {m : NameMap α}

/-- A map that is not empty has a value. -/
theorem Full.exists_get? {P : α → Prop} (h : m.Full P) : ∃ x a, m.get? x = some a := by
  obtain ⟨p, hp⟩ := List.exists_mem_of_ne_nil m h.1
  exact ⟨p.1, p.2, h.2.sorted.get? hp⟩

end NameMap

namespace FactTable

variable {t t' : FactTable} {p : Fact.Place} {a : Fact} {log : List (Fact.Place × Fact)}

/-! ### Operations -/

/-- What is done to a table. A rollback names a moment by the number of the checkpoint that marked it. -/
inductive Operation where
  | add (p : Fact.Place) (a : Fact)
  | checkpoint
  | rollback (number : Nat)
deriving DecidableEq, Repr

/-- What an operation answers: how a fact was added, which moment it is, or how many facts were removed. -/
inductive Answer where
  | added (outcome : Except Fault Unit)
  | marked (mark : Nat)
  | removed (count : Nat)
  | unmarked

/-- A table, or a log, with the moments marked so far. -/
structure Marked (α : Type) where
  content : α
  marks : List Nat

def step (op : Operation) (s : Marked FactTable) : Answer × Marked FactTable :=
  match op with
  | .add p a => (.added (s.content.write p a).1, { s with content := (s.content.write p a).2 })
  | .checkpoint => (.marked s.content.size, { s with marks := s.marks ++ [s.content.size] })
  | .rollback number =>
    match s.marks[number]? with
    | some mark => (.removed (s.content.since mark), { s with content := s.content.rollback mark })
    | none => (.unmarked, s)

/-- The same on a list of facts. A place is written once, and a rollback cuts the list off. -/
def logStep (op : Operation) (s : Marked (List (Fact.Place × Fact))) : Answer × Marked (List (Fact.Place × Fact)) :=
  match op with
  | .add p a =>
    if p ∈ s.content.map Prod.fst then (.added (.error (.ofCause (.duplicate p.layer p.identifier p.key))), s)
    else (.added (.ok ()), { s with content := s.content ++ [(p, a)] })
  | .checkpoint => (.marked s.content.length, { s with marks := s.marks ++ [s.content.length] })
  | .rollback number =>
    match s.marks[number]? with
    | some mark => (.removed (s.content.length - mark), { s with content := s.content.take mark })
    | none => (.unmarked, s)

/-- The answers to a sequence of operations, and what they lead to. -/
def runFrom {α : Type} (step : Operation → Marked α → Answer × Marked α) :
    List Operation → Marked α → List Answer × Marked α
  | [], s => ([], s)
  | op :: ops, s =>
    let rest := runFrom step ops (step op s).2
    ((step op s).1 :: rest.1, rest.2)

/-- A sequence of operations on the empty table. -/
def run (ops : List Operation) : List Answer × Marked FactTable := runFrom step ops ⟨.empty, []⟩

/-- A sequence of operations on the empty list. -/
def logRun (ops : List Operation) : List Answer × Marked (List (Fact.Place × Fact)) := runFrom logStep ops ⟨[], []⟩

/-! ### Tables and their logs -/

/-- A table holds the facts of a log, in the order of the log. -/
structure Logs (t : FactTable) (log : List (Fact.Place × Fact)) : Prop where
  distinct : (log.map Prod.fst).Nodup
  journal : t.journal = (log.map Prod.fst).reverse
  get : ∀ p a, t.get? p = some a ↔ (p, a) ∈ log

namespace Logs

theorem empty : Logs .empty [] :=
  ⟨List.nodup_nil, rfl, fun p a => ⟨fun h => (by cases h), fun h => (by cases h)⟩⟩

theorem contains (h : t.Logs log) (p : Fact.Place) : t.contains p = true ↔ p ∈ log.map Prod.fst := by
  rw [FactTable.contains, Option.isSome_iff_exists]
  simp only [h.get, List.mem_map, Prod.exists, exists_and_right, exists_eq_right]

theorem size (h : t.Logs log) : t.size = log.length := by
  rw [FactTable.size, h.journal, List.length_reverse, List.length_map]

/-- A table is told by its log. -/
theorem unique (h : t.Logs log) (h' : t'.Logs log) : t = t' := by
  refine eq_of_get? (fun p => ?_) (h.journal.trans h'.journal.symm)
  refine Option.ext fun a => ?_
  rw [h.get, h'.get]

theorem write (h : t.Logs log) (hp : p ∉ log.map Prod.fst) : (t.write p a).2.Logs (log ++ [(p, a)]) := by
  have hfree : t.contains p = false := Bool.eq_false_iff.2 fun hc => hp ((h.contains p).1 hc)
  obtain ⟨-, hjournal, hget⟩ := write_free (a := a) hfree
  refine ⟨?_, ?_, fun q b => ?_⟩
  · rw [List.map_append, List.nodup_append_comm]
    exact List.nodup_cons.2 ⟨hp, h.distinct⟩
  · rw [hjournal, h.journal, List.map_append, List.reverse_append]
    rfl
  · rw [hget, List.mem_append, List.mem_singleton, Prod.mk.injEq]
    split
    next hq =>
      have hold : (q, b) ∉ log := fun hmem => hp (List.mem_map.2 ⟨(q, b), hmem, hq⟩)
      rw [or_iff_right hold, Option.some.injEq, and_iff_right hq, eq_comm]
    next hq => simp [h.get, hq]

/-- Taking back the latest fact takes the last one off the log. -/
theorem undo (h : t.Logs log) : t.undo.Logs log.dropLast := by
  rcases List.eq_nil_or_concat log with rfl | ⟨log, ⟨p, a⟩, rfl⟩
  · have hundo : t.undo = t := by
      rw [FactTable.undo, h.journal]
      rfl
    rwa [hundo]
  · rw [List.concat_eq_append] at h ⊢
    have hjournal : t.journal = p :: (log.map Prod.fst).reverse := by
      rw [h.journal, List.map_append, List.reverse_append]
      rfl
    have hdistinct := h.distinct
    rw [List.map_append, List.nodup_append_comm] at hdistinct
    obtain ⟨hp, hlog⟩ := List.nodup_cons.1 hdistinct
    rw [List.dropLast_concat]
    refine ⟨hlog, ?_, fun q b => ?_⟩
    · rw [journal_undo, hjournal, List.tail_cons]
    · rw [get?_undo hjournal]
      split
      next hq =>
        have hold : (q, b) ∉ log := fun hmem => hp (List.mem_map.2 ⟨(q, b), hmem, hq⟩)
        simp [hold]
      next hq => simp [h.get, hq]

theorem undoLast (n : Nat) (h : t.Logs log) :
    (t.undoLast n).Logs (log.take (log.length - n)) := by
  induction n generalizing t log with
  | zero => rwa [Nat.sub_zero, List.take_length]
  | succ n ih =>
    have hundone := ih h.undo
    have hmin : min (min (log.length - 1) log.length - n) (log.length - 1) = log.length - (n + 1) := by omega
    rw [List.dropLast_eq_take, List.take_take, List.length_take, hmin] at hundone
    rwa [FactTable.undoLast]

theorem rollback (h : t.Logs log) (mark : Nat) : (t.rollback mark).Logs (log.take mark) := by
  have hlast := h.undoLast (t.since mark)
  rw [since, h.size] at hlast
  rw [FactTable.rollback, since, h.size]
  by_cases hmark : mark ≤ log.length
  · have hsub : log.length - (log.length - mark) = mark := by omega
    rwa [hsub] at hlast
  · have hsub : log.length - (log.length - mark) = log.length := by omega
    rw [hsub, List.take_length] at hlast
    rwa [List.take_of_length_le (by omega)]

end Logs

/-! ### Views -/

theorem mem_identifiers (t : FactTable) {layer x : String} :
    x ∈ t.identifiers layer ↔ ∃ key a, t.get? ⟨layer, x, key⟩ = some a := by
  have hinner := t.proper.inner layer
  rw [identifiers, NameMap.mem_keys hinner.sorted]
  simp only [get?_eq, FactMaps.factsAt]
  constructor
  · rintro ⟨facts, hfacts⟩
    obtain ⟨key, a, ha⟩ := (hinner.values x facts hfacts).exists_get?
    exact ⟨key, a, by rw [NameMap.inner, hfacts]; exact ha⟩
  · rintro ⟨key, a, ha⟩
    rw [NameMap.inner] at ha
    cases hx : (t.entries.inner layer).get? x with
    | none =>
      rw [hx] at ha
      cases ha
    | some facts => exact ⟨facts, rfl⟩

theorem mem_layers (t : FactTable) {layer : String} :
    layer ∈ t.layers ↔ ∃ x, x ∈ t.identifiers layer := by
  rw [layers, NameMap.mem_keys t.proper.sorted]
  constructor
  · rintro ⟨ids, hids⟩
    have hfull := t.proper.values layer ids hids
    obtain ⟨x, facts, hx⟩ := hfull.exists_get?
    refine ⟨x, ?_⟩
    rw [identifiers, NameMap.inner, hids]
    exact (NameMap.mem_keys hfull.2.sorted).2 ⟨facts, hx⟩
  · rintro ⟨x, hx⟩
    rw [identifiers, NameMap.inner] at hx
    cases hids : t.entries.get? layer with
    | none =>
      rw [hids] at hx
      cases hx
    | some ids => exact ⟨ids, rfl⟩

theorem facts?_eq_some_iff (t : FactTable) {layer identifier : String} {m : NameMap Fact} :
    t.facts? layer identifier = some m ↔
      m ≠ [] ∧ m.Sorted ∧ ∀ key a, m.get? key = some a ↔ t.get? ⟨layer, identifier, key⟩ = some a := by
  have hfacts := (t.proper.factsAt layer identifier).sorted
  rw [facts?_eq]
  constructor
  · intro h
    split at h
    next => cases h
    next hne =>
      cases h
      refine ⟨fun hnil => hne (List.isEmpty_iff.2 hnil), hfacts, fun key a => ?_⟩
      rw [get?_eq]
  · rintro ⟨hne, hsorted, hget⟩
    have hm : t.entries.factsAt layer identifier = m := by
      refine hfacts.ext hsorted fun key => Option.ext fun a => ?_
      rw [hget, get?_eq]
    rw [hm, if_neg fun hnil => hne (List.isEmpty_iff.1 hnil)]

/-- All that can be asked of a table agrees with a log in which no place is written twice. -/
structure Agrees (t : FactTable) (log : List (Fact.Place × Fact)) : Prop where
  distinct : (log.map Prod.fst).Nodup
  size : t.size = log.length
  get : ∀ p a, t.get? p = some a ↔ (p, a) ∈ log
  contains : ∀ p, t.contains p = true ↔ p ∈ log.map Prod.fst
  facts : ∀ layer identifier m, t.facts? layer identifier = some m ↔
    m ≠ [] ∧ m.Sorted ∧ ∀ key a, m.get? key = some a ↔ (⟨layer, identifier, key⟩, a) ∈ log
  identifiers : ∀ layer,
    t.identifiers layer = .ofList ((log.filter (·.1.layer = layer)).map (·.1.identifier))
  layers : t.layers = .ofList (log.map (·.1.layer))

theorem Logs.mem_identifiers (h : t.Logs log) {layer x : String} :
    x ∈ t.identifiers layer ↔ ∃ e ∈ log, e.1.layer = layer ∧ e.1.identifier = x := by
  rw [FactTable.mem_identifiers]
  simp only [h.get]
  constructor
  · rintro ⟨key, a, hmem⟩
    exact ⟨_, hmem, rfl, rfl⟩
  · rintro ⟨⟨⟨l, i, key⟩, a⟩, hmem, rfl, rfl⟩
    exact ⟨key, a, hmem⟩

theorem Logs.agrees (h : t.Logs log) : t.Agrees log where
  distinct := h.distinct
  size := h.size
  get := h.get
  contains := h.contains
  facts layer identifier m := by
    rw [facts?_eq_some_iff]
    simp only [h.get]
  identifiers layer := by
    refine NameSet.Sorted.ext (t.proper.inner layer).sorted.keys (NameSet.sorted_ofList _) fun x => ?_
    rw [NameSet.mem_ofList]
    refine h.mem_identifiers.trans ?_
    simp [and_assoc]
  layers := by
    refine NameSet.Sorted.ext t.proper.sorted.keys (NameSet.sorted_ofList _) fun layer => ?_
    rw [NameSet.mem_ofList]
    refine t.mem_layers.trans ?_
    simp only [h.mem_identifiers, List.mem_map]
    constructor
    · rintro ⟨x, e, he, hl, -⟩
      exact ⟨e, he, hl⟩
    · rintro ⟨e, he, hl⟩
      exact ⟨_, e, he, hl, rfl⟩

/-! ### Runs -/

/-- One operation on a table and on its log. -/
theorem step_logs {s : Marked FactTable} {l : Marked (List (Fact.Place × Fact))} (h : s.content.Logs l.content)
    (hmarks : s.marks = l.marks) (op : Operation) :
    (step op s).1 = (logStep op l).1 ∧ (step op s).2.content.Logs (logStep op l).2.content ∧
      (step op s).2.marks = (logStep op l).2.marks := by
  cases op with
  | add p a =>
    rw [step, logStep]
    split
    next hp =>
      rw [write_taken ((h.contains p).2 hp)]
      exact ⟨rfl, h, hmarks⟩
    next hp =>
      have hfree : s.content.contains p = false := Bool.eq_false_iff.2 fun hc => hp ((h.contains p).1 hc)
      exact ⟨congrArg _ (write_free hfree).1, h.write hp, hmarks⟩
  | checkpoint =>
    rw [step, logStep, h.size, hmarks]
    exact ⟨rfl, h, rfl⟩
  | rollback number =>
    rw [step, logStep, hmarks]
    cases l.marks[number]? with
    | none => exact ⟨rfl, h, hmarks⟩
    | some mark =>
      dsimp only
      rw [since, h.size]
      exact ⟨rfl, h.rollback mark, rfl⟩

theorem runFrom_logs (ops : List Operation) {s : Marked FactTable} {l : Marked (List (Fact.Place × Fact))}
    (h : s.content.Logs l.content) (hmarks : s.marks = l.marks) :
    (runFrom step ops s).1 = (runFrom logStep ops l).1 ∧
      (runFrom step ops s).2.content.Logs (runFrom logStep ops l).2.content := by
  induction ops generalizing s l with
  | nil => exact ⟨rfl, h⟩
  | cons op ops ih =>
    obtain ⟨hanswer, hlogs, hmarks⟩ := step_logs h hmarks op
    obtain ⟨hanswers, hlogs⟩ := ih hlogs hmarks
    exact ⟨by rw [runFrom, runFrom, hanswer, hanswers], hlogs⟩

/-- An operation that leaves a log no shorter than a length leaves its beginning of that length. -/
theorem take_logStep {c : Nat} (op : Operation) {l : Marked (List (Fact.Place × Fact))} (h : c ≤ l.content.length)
    (h' : c ≤ (logStep op l).2.content.length) : (logStep op l).2.content.take c = l.content.take c := by
  cases op with
  | add p a =>
    rw [logStep]
    split
    next => rfl
    next => exact List.take_append_of_le_length h
  | checkpoint => rfl
  | rollback number =>
    rw [logStep] at h' ⊢
    cases hmark : l.marks[number]? with
    | none => rfl
    | some mark =>
      rw [hmark] at h'
      dsimp only at h' ⊢
      rw [List.length_take] at h'
      rw [List.take_take, Nat.min_eq_left (by omega)]

theorem take_runFrom {c : Nat} (ops : List Operation) {l : Marked (List (Fact.Place × Fact))}
    (h : ∀ part, part <+: ops → c ≤ (runFrom logStep part l).2.content.length) :
    (runFrom logStep ops l).2.content.take c = l.content.take c := by
  induction ops generalizing l with
  | nil => rfl
  | cons op ops ih =>
    have hstart : c ≤ l.content.length := h [] List.nil_prefix
    have hstep : c ≤ (logStep op l).2.content.length := h [op] ⟨ops, rfl⟩
    have hrest : ∀ part, part <+: ops → c ≤ (runFrom logStep part (logStep op l).2).2.content.length :=
      fun part hpart => h (op :: part) (List.cons_prefix_cons.2 ⟨rfl, hpart⟩)
    exact (ih hrest).trans (take_logStep op hstart hstep)

theorem runFrom_append {α : Type} (step : Operation → Marked α → Answer × Marked α) (ops later : List Operation)
    (s : Marked α) : (runFrom step (ops ++ later) s).2 = (runFrom step later (runFrom step ops s).2).2 := by
  induction ops generalizing s with
  | nil => rfl
  | cons op ops ih => exact ih _

theorem run_logs (ops : List Operation) :
    (run ops).1 = (logRun ops).1 ∧ (run ops).2.content.Logs (logRun ops).2.content :=
  runFrom_logs (s := ⟨.empty, []⟩) (l := ⟨[], []⟩) ops Logs.empty rfl

theorem logRun_append (ops later : List Operation) :
    (logRun (ops ++ later)).2 = (runFrom logStep later (logRun ops).2).2 :=
  runFrom_append logStep ops later ⟨[], []⟩

/-- The table refines a log: it gives the same answers to every sequence of operations, it agrees with the log in
all views, and a rollback to a moment that was never undercut restores the table of that moment. -/
theorem run_refines_log (ops : List Operation) :
    (run ops).1 = (logRun ops).1 ∧ (run ops).2.content.Agrees (logRun ops).2.content ∧
    ∀ later, (∀ part, part <+: later → (run ops).2.content.size ≤ (run (ops ++ part)).2.content.size) →
      (run (ops ++ later)).2.content.rollback (run ops).2.content.size = (run ops).2.content := by
  obtain ⟨hanswers, hlogs⟩ := run_logs ops
  refine ⟨hanswers, hlogs.agrees, fun later hlater => ?_⟩
  have hlater : ∀ part, part <+: later →
      (logRun ops).2.content.length ≤ (runFrom logStep part (logRun ops).2).2.content.length := by
    intro part hpart
    have hsize := hlater part hpart
    rwa [hlogs.size, (run_logs (ops ++ part)).2.size, logRun_append] at hsize
  -- the log of all operations begins with the log of the first ones
  have htake := take_runFrom later hlater
  rw [← logRun_append, List.take_length] at htake
  have hrolled := (run_logs (ops ++ later)).2.rollback (run ops).2.content.size
  rw [hlogs.size, htake] at hrolled
  rw [hlogs.size]
  exact hrolled.unique hlogs

def firstFact : List Operation := [.add ⟨"types", "x", "type"⟩ (.text "Int"), .checkpoint]

/-- A new layer that goes again, a place that is taken, an early mark and a place that is free again. -/
def laterFacts : List Operation :=
  [.add ⟨"liquid", "y", "type"⟩ (.text "Int"), .add ⟨"types", "x", "type"⟩ (.text "Bool"), .rollback 0,
    .add ⟨"types", "y", "type"⟩ (.text "Bool"), .checkpoint, .add ⟨"liquid", "y", "type"⟩ (.text "Bool")]

theorem laterFacts_taken_back :
    (∀ part, part <+: laterFacts → (run firstFact).2.content.size ≤ (run (firstFact ++ part)).2.content.size) ∧
    (run (firstFact ++ laterFacts)).2.content.layers = ["liquid", "types"] ∧
    (run (firstFact ++ laterFacts)).2.content.rollback 1 = (run firstFact).2.content := by
  have hnever : ∀ part ∈ laterFacts.inits,
      (run firstFact).2.content.size ≤ (run (firstFact ++ part)).2.content.size := by decide
  have hlater : ∀ part, part <+: laterFacts →
      (run firstFact).2.content.size ≤ (run (firstFact ++ part)).2.content.size :=
    fun part hpart => hnever part ((List.mem_inits part laterFacts).2 hpart)
  refine ⟨hlater, by decide, (run_refines_log firstFact).2.2 laterFacts hlater⟩

end FactTable

end LayerCheck
