import Mathlib
import LayerCheck.Proofs.Solver.Memory
import LayerCheck.Proofs.Solver.Rendering

/-! What a cached solver remembers. Its entries are the texts of the queries answered last, as many of them as its
capacity allows, so that a query is answered from memory exactly when few enough others were answered after its last
use. -/
namespace LayerCheck

namespace Cache

variable {answer : Query → Except SolverError Bool} {P : Query → Prop} {c : Cache} {q : Query}
variable {entries : List (String × Bool)} {key : String} {valid : Bool}

/-! ### Answers -/

/-- Every remembered answer is the answer to a query of some kind. -/
def Faithful (answer : Query → Except SolverError Bool) (P : Query → Prop) (entries : List (String × Bool)) : Prop :=
  ∀ e ∈ entries, ∃ r, P r ∧ r.render = e.1 ∧ answer r = .ok e.2

/-- Queries of some kind with one text have one answer, if one of them has an answer. -/
def ByText (answer : Query → Except SolverError Bool) (P : Query → Prop) : Prop :=
  ∀ q q', P q → P q' → q.render = q'.render → ∀ valid, answer q = .ok valid → answer q' = .ok valid

theorem Faithful.answered (hP : ByText answer P) (h : Faithful answer P entries) (hq : P q)
    (hmem : (q.render, valid) ∈ entries) : answer q = .ok valid := by
  obtain ⟨r, hr, hrender, hanswer⟩ := h _ hmem
  exact hP r q hr hq hrender valid hanswer

theorem Faithful.take (h : Faithful answer P entries) (n : Nat) : Faithful answer P (entries.take n) :=
  fun e he => h e (List.mem_of_mem_take he)

theorem Faithful.touch (h : Faithful answer P entries) (hq : P q) (hanswer : answer q = .ok valid) :
    Faithful answer P (touch q.render valid entries) := by
  intro e he
  rcases List.mem_cons.1 he with rfl | he
  · exact ⟨q, hq, rfl, hanswer⟩
  · exact h e (List.mem_filter.1 he).1

/-- What a query does to the entries, and what is counted. -/
structure Asked (answer : Query → Except SolverError Bool) (q : Query) (c c' : Cache) : Prop where
  capacity : c'.capacity = c.capacity
  queries : c'.queries = c.queries + 1
  entries : c'.entries = match answer q with
    | .ok valid => (touch q.render valid c.entries).take c.capacity
    | .error _ => c.entries
  hits : c'.hits = c.hits + if q.render ∈ c.entries.map Prod.fst then 1 else 0

/-- A lookup by text finds the answer to the query itself. -/
theorem ask_eq (hP : ByText answer P) (h : Faithful answer P c.entries) (hq : P q) :
    (ask answer q c).1 = answer q ∧ Asked answer q c (ask answer q c).2 := by
  unfold ask
  dsimp only
  cases hlookup : c.entries.lookup q.render with
  | some valid =>
    have hmem := mem_of_lookup hlookup
    have hanswer := h.answered hP hq hmem
    refine ⟨hanswer.symm, rfl, rfl, ?_, ?_⟩
    · rw [hanswer]
      rfl
    · rw [if_pos (List.mem_map_of_mem hmem)]
  | none =>
    have hmiss := lookup_eq_none_iff.1 hlookup
    cases hanswer : answer q with
    | ok valid => exact ⟨rfl, rfl, rfl, by rw [hanswer]; rfl, by rw [if_neg hmiss]; rfl⟩
    | error e => exact ⟨rfl, rfl, rfl, by rw [hanswer], by rw [if_neg hmiss]; rfl⟩

/-! ### Recency -/

/-- The entries after a query, if nothing were dropped. -/
def use (answer : Query → Except SolverError Bool) (entries : List (String × Bool)) (q : Query) :
    List (String × Bool) :=
  match answer q with
  | .ok valid => touch q.render valid entries
  | .error _ => entries

/-- All answers to past queries by their texts, the most recently used first. -/
def recent (answer : Query → Except SolverError Bool) (past : List Query) : List (String × Bool) :=
  past.foldl (use answer) []

/-- The cache after a sequence of queries. -/
def after (answer : Query → Except SolverError Bool) (capacity : Nat) (past : List Query) : Cache :=
  past.foldl (fun c q => (ask answer q c).2) (empty capacity)

theorem recent_concat (past : List Query) (q : Query) :
    recent answer (past ++ [q]) = use answer (recent answer past) q := by
  simp [recent]

theorem after_concat (capacity : Nat) (past : List Query) (q : Query) :
    after answer capacity (past ++ [q]) = (ask answer q (after answer capacity past)).2 := by
  simp [after]

theorem sound_after (capacity : Nat) (past : List Query) : (after answer capacity past).Sound := by
  induction past using List.reverseRecOn with
  | nil => exact sound_empty capacity
  | append_singleton past q ih =>
    rw [after_concat]
    exact ih.ask answer q

theorem nodup_recent (past : List Query) : ((recent answer past).map Prod.fst).Nodup := by
  induction past using List.reverseRecOn with
  | nil => exact List.nodup_nil
  | append_singleton past q ih =>
    rw [recent_concat, use]
    split
    next => exact nodup_touch ih
    next => exact ih

theorem faithful_recent {past : List Query} (h : ∀ q ∈ past, P q) : Faithful answer P (recent answer past) := by
  induction past using List.reverseRecOn with
  | nil => exact fun e he => absurd he List.not_mem_nil
  | append_singleton past q ih =>
    have hpast := ih fun r hr => h r (List.mem_append_left _ hr)
    rw [recent_concat, use]
    split
    next hanswer => exact hpast.touch (h q (List.mem_append_right _ List.mem_cons_self)) hanswer
    next => exact hpast

/-- Distinct texts: taking one out of the entries that are kept leaves room for no more than one. -/
theorem take_filter_take (n : Nat) (h : (entries.map Prod.fst).Nodup) :
    ((entries.take (n + 1)).filter (·.1 != key)).take n = (entries.filter (·.1 != key)).take n := by
  induction entries generalizing n with
  | nil => simp
  | cons e entries ih =>
    obtain ⟨hnot, hrest⟩ := List.nodup_cons.1 h
    rw [List.take_succ_cons]
    by_cases he : e.1 = key
    · have hall : ∀ e' ∈ entries, (e'.1 != key) = true := by
        intro e' he'
        refine bne_iff_ne.2 fun hkey => hnot ?_
        rw [he, ← hkey]
        exact List.mem_map_of_mem he'
      rw [List.filter_cons_of_neg (by simp [he]), List.filter_cons_of_neg (by simp [he]),
        List.filter_eq_self.2 fun e' he' => hall e' (List.mem_of_mem_take he'), List.filter_eq_self.2 hall,
        List.take_take, Nat.min_self]
    · rw [List.filter_cons_of_pos (by simp [he]), List.filter_cons_of_pos (by simp [he])]
      cases n with
      | zero => rfl
      | succ n => rw [List.take_succ_cons, List.take_succ_cons, ih n hrest]

theorem take_touch_take {n : Nat} (hn : 0 < n) (h : (entries.map Prod.fst).Nodup) :
    (touch key valid (entries.take n)).take n = (touch key valid entries).take n := by
  obtain ⟨n, rfl⟩ := Nat.exists_eq_succ_of_ne_zero (Nat.pos_iff_ne_zero.1 hn)
  rw [touch, touch, List.take_succ_cons, List.take_succ_cons, take_filter_take n h]

/-- The cache holds the answers used last, as many as fit. -/
theorem after_eq (answer : Query → Except SolverError Bool) (hP : ByText answer P) (capacity : Nat) {past : List Query}
    (h : ∀ q ∈ past, P q) :
    (after answer capacity past).capacity = max 1 capacity ∧ (after answer capacity past).queries = past.length ∧
      (after answer capacity past).entries = (recent answer past).take (max 1 capacity) := by
  induction past using List.reverseRecOn with
  | nil => simp [after, recent, empty]
  | append_singleton past q ih =>
    have hq := h q (List.mem_append_right _ List.mem_cons_self)
    have hpast : ∀ r ∈ past, P r := fun r hr => h r (List.mem_append_left _ hr)
    obtain ⟨hcapacity, hqueries, hentries⟩ := ih hpast
    have hfaithful : Faithful answer P (after answer capacity past).entries :=
      hentries ▸ (faithful_recent hpast).take _
    have hasked := (ask_eq hP hfaithful hq).2
    rw [after_concat, recent_concat]
    refine ⟨hasked.capacity.trans hcapacity, ?_, ?_⟩
    · rw [hasked.queries, hqueries, List.length_append, List.length_singleton]
    · rw [hasked.entries, hcapacity, hentries, use]
      split
      next => exact take_touch_take (by omega) (nodup_recent past)
      next => rfl

/-! ### Last uses -/

/-- The texts of the queries that are answered. -/
def used (answer : Query → Except SolverError Bool) (past : List Query) : List String :=
  (past.filter fun q => (answer q).isOk).map Query.render

/-- A query with the same text was answered, and since it was last, fewer other texts than the capacity. -/
def Remembered (answer : Query → Except SolverError Bool) (capacity : Nat) (past : List Query) (q : Query) : Prop :=
  ∃ before last since, past = before ++ last :: since ∧ last.render = q.render ∧ (answer last).isOk = true ∧
    q.render ∉ used answer since ∧ (used answer since).toFinset.card < max 1 capacity

theorem used_concat (past : List Query) (q : Query) :
    used answer (past ++ [q]) = used answer past ++ if (answer q).isOk then [q.render] else [] := by
  rw [used, used, List.filter_append, List.map_append, List.filter_singleton]
  cases (answer q).isOk <;> rfl

theorem mem_keys_touch {k : String} :
    k ∈ (touch key valid entries).map Prod.fst ↔ k ∈ entries.map Prod.fst ∨ k = key := by
  by_cases hk : k = key
  · simp [touch, hk]
  · simp [touch, hk]

theorem mem_recent {past : List Query} : key ∈ (recent answer past).map Prod.fst ↔ key ∈ used answer past := by
  induction past using List.reverseRecOn with
  | nil => rfl
  | append_singleton past q ih =>
    rw [recent_concat, used_concat, List.mem_append, use, ← ih]
    cases answer q with
    | ok valid => simp [mem_keys_touch, Except.isOk, Except.toBool]
    | error e => simp [Except.isOk, Except.toBool]

theorem exists_last {past : List Query} (h : key ∈ used answer past) :
    ∃ before last since, past = before ++ last :: since ∧ last.render = key ∧ (answer last).isOk = true ∧
      key ∉ used answer since := by
  induction past using List.reverseRecOn with
  | nil => cases h
  | append_singleton past q ih =>
    by_cases hq : (answer q).isOk = true ∧ q.render = key
    · exact ⟨past, q, [], rfl, hq.2, hq.1, List.not_mem_nil⟩
    · have hnot : key ∉ if (answer q).isOk then [q.render] else [] := by
        split
        next hok => exact fun hmem => hq ⟨hok, (List.mem_singleton.1 hmem).symm⟩
        next => exact List.not_mem_nil
      rw [used_concat, List.mem_append, or_iff_left hnot] at h
      obtain ⟨before, last, since, rfl, hkey, hok, hsince⟩ := ih h
      refine ⟨before, last, since ++ [q], by simp, hkey, hok, ?_⟩
      rw [used_concat, List.mem_append, not_or]
      exact ⟨hsince, hnot⟩

/-- In front of a text stand the texts used since its last use. -/
theorem recent_eq_append (before : List Query) {last : Query} (hlast : (answer last).isOk = true) {since : List Query}
    (hsince : last.render ∉ used answer since) :
    ∃ front valid back, recent answer (before ++ last :: since) = front ++ (last.render, valid) :: back ∧
      ∀ key, key ∈ front.map Prod.fst ↔ key ∈ used answer since := by
  induction since using List.reverseRecOn with
  | nil =>
    rw [recent_concat, use]
    cases hanswer : answer last with
    | ok valid => exact ⟨[], valid, _, rfl, fun key => Iff.rfl⟩
    | error e =>
      rw [hanswer] at hlast
      cases hlast
  | append_singleton since q ih =>
    rw [used_concat, List.mem_append, not_or] at hsince
    obtain ⟨front, valid, back, heq, hfront⟩ := ih hsince.1
    have hpast : before ++ last :: (since ++ [q]) = (before ++ last :: since) ++ [q] := by simp
    rw [hpast, recent_concat, heq, used_concat, use]
    cases hanswer : answer q with
    | ok valid' =>
      have hne : last.render ≠ q.render := by simpa [hanswer, Except.isOk, Except.toBool] using hsince.2
      refine ⟨touch q.render valid' front, valid, back.filter (·.1 != q.render), ?_, fun key => ?_⟩
      · change _ :: List.filter _ _ = _
        rw [List.filter_append, List.filter_cons_of_pos (by simpa using hne)]
        rfl
      · rw [mem_keys_touch, hfront, List.mem_append]
        simp [Except.isOk, Except.toBool]
    | error e => exact ⟨front, valid, back, rfl, fun key => by simp [hfront, Except.isOk, Except.toBool]⟩

theorem mem_take_iff {front back : List (String × Bool)} (h : key ∉ front.map Prod.fst) (n : Nat) :
    key ∈ ((front ++ (key, valid) :: back).take n).map Prod.fst ↔ front.length < n := by
  induction front generalizing n with
  | nil => cases n <;> simp
  | cons e front ih =>
    rw [List.map_cons, List.mem_cons, not_or] at h
    cases n with
    | zero => simp
    | succ n =>
      rw [List.cons_append, List.take_succ_cons, List.map_cons, List.mem_cons, or_iff_right h.1, ih h.2,
        List.length_cons, Nat.succ_lt_succ_iff]

/-- What the cache holds is what is remembered. -/
theorem mem_take_recent_iff {capacity : Nat} {past : List Query} :
    q.render ∈ ((recent answer past).take (max 1 capacity)).map Prod.fst ↔ Remembered answer capacity past q := by
  -- where the text stands among the recent ones is how many were used since
  have hplace : ∀ {before last since}, past = before ++ last :: since → last.render = q.render →
      (answer last).isOk = true → q.render ∉ used answer since →
      (q.render ∈ ((recent answer past).take (max 1 capacity)).map Prod.fst ↔
        (used answer since).toFinset.card < max 1 capacity) := by
    intro before last since hpast hrender hlast hsince
    rw [← hrender] at hsince ⊢
    obtain ⟨front, valid, back, heq, hfront⟩ := recent_eq_append before hlast hsince
    have hnodup : (front.map Prod.fst).Nodup := by
      have hall : ((recent answer past).map Prod.fst).Nodup := nodup_recent past
      rw [hpast, heq, List.map_append, List.nodup_append] at hall
      exact hall.1
    have hcard : (used answer since).toFinset.card = front.length := by
      have hset : (used answer since).toFinset = (front.map Prod.fst).toFinset := by
        ext key
        rw [List.mem_toFinset, List.mem_toFinset, hfront]
      rw [hset, List.toFinset_card_of_nodup hnodup, List.length_map]
    rw [hpast, heq, hcard]
    exact mem_take_iff (fun hmem => hsince ((hfront _).1 hmem)) _
  constructor
  · intro h
    have hmem : q.render ∈ used answer past :=
      mem_recent.1 (List.map_subset _ (List.take_subset _ _) h)
    obtain ⟨before, last, since, hpast, hrender, hlast, hsince⟩ := exists_last hmem
    exact ⟨before, last, since, hpast, hrender, hlast, hsince, (hplace hpast hrender hlast hsince).1 h⟩
  · rintro ⟨before, last, since, hpast, hrender, hlast, hsince, hcard⟩
    exact (hplace hpast hrender hlast hsince).2 hcard

end Cache

/-- A query over identifiers, each possibly behind a dollar sign, whose terms were read from texts. -/
structure Query.Parsed (q : Query) : Prop where
  bindings : ∀ b ∈ q.bindings, Token.isWord (Token.bare b.name) = true
  premises : ∀ p ∈ q.premises, ∃ text, Term.parse text = .ok p
  conclusion : ∃ text, Term.parse text = .ok q.conclusion

theorem Query.Parsed.legible {q : Query} (h : q.Parsed) : q.Legible (fun _ => True) fun _ => False := by
  have hterm : ∀ {p : Term}, (∃ text, Term.parse text = .ok p) → p.Legible (fun _ => True) fun _ => False := by
    rintro p ⟨text, hp⟩
    exact (Term.readable_of_parse hp).legible fun _ _ => trivial
  exact ⟨h.bindings, fun p hp => hterm (h.premises p hp), hterm h.conclusion⟩

namespace Cache

theorem byText_parsed (answer : Query → Except SolverError Bool) : ByText answer Query.Parsed := by
  intro q q' h h' hrender valid hanswer
  have halike := h.legible.alike_of_render h'.legible hrender
  rwa [← halike.eq fun n _ hn => hn.2]

/-- On parsed queries a cached solver answers as the solver alone does, and from memory exactly what is
remembered. -/
theorem ask_after_parsed (s : Solver) (capacity : Nat) (past : List Query) (q : Query)
    (h : ∀ r ∈ q :: past, r.Parsed) :
    (ask s.settle q (after s.settle capacity past)).1 = s.settle q ∧
    (ask s.settle q (after s.settle capacity past)).2.queries = past.length + 1 ∧
    ((ask s.settle q (after s.settle capacity past)).2.hits = (after s.settle capacity past).hits + 1 ∧
        Remembered s.settle capacity past q ∨
      (ask s.settle q (after s.settle capacity past)).2.hits = (after s.settle capacity past).hits ∧
        ¬ Remembered s.settle capacity past q) := by
  have hpast : ∀ r ∈ past, r.Parsed := fun r hr => h r (List.mem_cons_of_mem _ hr)
  obtain ⟨-, hqueries, hentries⟩ := after_eq s.settle (byText_parsed _) capacity hpast
  have hfaithful : Faithful s.settle Query.Parsed (after s.settle capacity past).entries :=
    hentries ▸ (faithful_recent hpast).take _
  obtain ⟨hanswer, hasked⟩ := ask_eq (byText_parsed _) hfaithful (h q List.mem_cons_self)
  refine ⟨hanswer, hqueries ▸ hasked.queries, ?_⟩
  rw [hasked.hits, hentries, ← mem_take_recent_iff]
  by_cases hmem : q.render ∈ ((recent s.settle past).take (max 1 capacity)).map Prod.fst
  · exact .inl ⟨by rw [if_pos hmem], hmem⟩
  · exact .inr ⟨by rw [if_neg hmem, Nat.add_zero], hmem⟩

/-- `forall x:Int. (x > 0) && true => x >= 1`. -/
def positiveQuery : Query where
  bindings := [⟨"x", .int⟩]
  premises := [.binary .gt (.var "x") (.int 0)]
  conclusion := .binary .ge (.var "x") (.int 1)

/-- A query about a name that it does not bind. -/
def openQuery : Query where
  bindings := [⟨"x", .int⟩]
  premises := []
  conclusion := .binary .gt (.var "y") (.int 0)

theorem parsed_positiveQuery : positiveQuery.Parsed := by
  refine ⟨by decide, fun p hp => ?_, _, Term.Readable.parse_render (.binary (.var rfl) (.int (by decide)))⟩
  rw [List.mem_singleton.1 hp]
  exact ⟨_, Term.Readable.parse_render (.binary (.var rfl) (.int (by decide)))⟩

theorem parsed_openQuery : openQuery.Parsed :=
  ⟨by decide, fun p hp => absurd hp List.not_mem_nil, _,
    Term.Readable.parse_render (.binary (.var rfl) (.int (by decide)))⟩

/-- A query that is not answered does not take the only place. -/
theorem ask_positiveQuery_again :
    let answer := Solver.settle ⟨2, 10⟩
    let again := ask answer positiveQuery (after answer 0 [positiveQuery, openQuery])
    again.1 = .ok true ∧ again.2.queries = 3 ∧ again.2.hits = 1 := by
  have hparsed : ∀ r ∈ [positiveQuery, positiveQuery, openQuery], r.Parsed := by
    simp [parsed_positiveQuery, parsed_openQuery]
  have hpositive : Solver.settle ⟨2, 10⟩ positiveQuery = .ok true := by cbv
  have hopen : (Solver.settle ⟨2, 10⟩ openQuery).isOk = false := by cbv
  have hbefore : (after (Solver.settle ⟨2, 10⟩) 0 [positiveQuery, openQuery]).hits = 0 := by cbv
  have hused : used (Solver.settle ⟨2, 10⟩) [openQuery] = [] := by simp [used, hopen]
  have hremembered : Remembered (Solver.settle ⟨2, 10⟩) 0 [positiveQuery, openQuery] positiveQuery :=
    ⟨[], positiveQuery, [openQuery], rfl, rfl, by rw [hpositive]; rfl, by simp [hused], by simp [hused]⟩
  obtain ⟨hanswer, hqueries, hhits⟩ := ask_after_parsed ⟨2, 10⟩ 0 [positiveQuery, openQuery] positiveQuery hparsed
  rcases hhits with ⟨hhits, -⟩ | ⟨-, hnot⟩
  · exact ⟨hanswer.trans hpositive, hqueries, by rw [hhits, hbefore]⟩
  · exact absurd hremembered hnot

end Cache

end LayerCheck
