import Lox.Proofs.Parser.Program
import Lox.Proofs.Resolution.Soundness
import Lox.Session

/-!
# What is admitted

A unit that passes its checks has no lexical issue, is what its tokens spell, and is what the resolver
found distances for (`check_ok`). So with the distances taken over, everything in it is bound
(`bound_of_checkProgram`, `bound_of_checkExpression`).
-/

namespace Lox

/-! ## Checks -/

/-- A unit passes its checks if each phase finds nothing wrong. -/
theorem check_ok {α : Type} {parse : OccurrenceId → List Token → Parser.Outcome α}
    {resolve : α → Except (List ScopeError) Distances} {n : OccurrenceId} {source : String}
    {tree : α} {distances : Distances}
    (h : (check parse resolve n source).result = .ok (tree, distances)) :
    lexicalIssuesOf source = [] ∧
      parse n (tokensOf source) = ⟨.ok tree, (check parse resolve n source).nextId⟩ ∧
      resolve tree = .ok distances := by
  unfold check at h ⊢
  simp only at h ⊢
  cases hparsed : parse n (tokensOf source) with
  | mk result nextId =>
    rw [hparsed] at h
    cases result with
    | error errors => nomatch h
    | ok tree' =>
      cases hresolved : resolve tree' with
      | error errors => simp [hresolved] at h
      | ok distances' =>
        simp only [hresolved] at h
        split at h
        · next hlexical =>
          obtain ⟨rfl, rfl⟩ : tree' = tree ∧ distances' = distances := by simpa using h
          exact ⟨List.isEmpty_iff.mp hlexical, rfl, hresolved⟩
        · nomatch h

/-- A check in which no phase finds anything wrong. -/
theorem check_eq {α : Type} {parse : OccurrenceId → List Token → Parser.Outcome α}
    {resolve : α → Except (List ScopeError) Distances} {n n' : OccurrenceId} {source : String}
    {tree : α} {distances : Distances} (hlexical : lexicalIssuesOf source = [])
    (hparse : parse n (tokensOf source) = ⟨.ok tree, n'⟩) (hresolve : resolve tree = .ok distances) :
    check parse resolve n source = ⟨.ok (tree, distances), n'⟩ := by
  simp only [check, hlexical, hparse, hresolve, List.isEmpty_nil, if_true]

namespace Parser

/-- Parsing never gives an identity back. -/
theorem nextId_le_run {α : Type} (p : Parser α) [Forward p] (n : OccurrenceId)
    (tokens : List Token) : n ≤ (p.run n tokens).nextId := by
  have start : (State.start n tokens).nextId = n := rfl
  have leads := Forward.leads (p := p) (State.start n tokens)
  unfold run
  split
  · next h =>
    rw [h] at leads
    exact start ▸ leads.nextId
  · next h =>
    rw [h] at leads
    exact start ▸ leads.nextId

end Parser

theorem nextId_le_checkProgram (n : OccurrenceId) (source : String) :
    n ≤ (checkProgram n source).nextId :=
  Parser.nextId_le_run Parser.program n (tokensOf source)

theorem nextId_le_checkExpression (n : OccurrenceId) (source : String) :
    n ≤ (checkExpression n source).nextId :=
  Parser.nextId_le_run _ n (tokensOf source)

/-! ## Distances that are taken over -/

/-- What is found in distances that were taken over: their own, and behind them those before. -/
theorem getElem?_insert_all {distances : Distances} (hnodup : (distances.map (·.1)).Nodup)
    (all : Std.TreeMap OccurrenceId Nat) (id : OccurrenceId) (d : Nat) :
    (distances.foldl (fun all (id, d) => all.insert id d) all)[id]? = some d ↔
      (id, d) ∈ distances ∨ id ∉ distances.map (·.1) ∧ all[id]? = some d := by
  induction distances generalizing all with
  | nil => simp
  | cons pair more ih =>
    obtain ⟨key, value⟩ := pair
    rw [List.map_cons, List.nodup_cons] at hnodup
    rw [List.foldl_cons, ih hnodup.2, Std.TreeMap.getElem?_insert]
    by_cases hkey : key = id
    · subst hkey
      have absent : ∀ d, (key, d) ∉ more :=
        fun d hmem => hnodup.1 (List.mem_map.mpr ⟨(key, d), hmem, rfl⟩)
      simp [absent, eq_comm, hnodup.1]
    · have hne : (id, d) ≠ (key, value) := fun h => hkey (congrArg Prod.fst h).symm
      simp [hkey, Ne.symm hkey, hne]

/-- The record of a machine, where all occurrences before the next one are known. -/
def Machine.record (m : Machine) (n : OccurrenceId) : Record := ⟨fun id => m.distances[id]?, n⟩

section

variable {m : Machine} {n n' : OccurrenceId} {ts : List Token} {os : List Occurrence}
variable {distances : Distances}

theorem distances_nodup (hos : Numbered n n' ts os)
    (hids : (distances.map (·.1)).Subperm (os.map (·.id))) : (distances.map (·.1)).Nodup := by
  obtain ⟨ids, hperm, hsub⟩ := hids
  exact hperm.nodup_iff.mp (hos.nodup.sublist hsub)

theorem distances_within (hos : Numbered n n' ts os)
    (hids : (distances.map (·.1)).Subperm (os.map (·.id))) :
    ∀ id ∈ distances.map (·.1), n ≤ id ∧ id < n' := by
  intro id hid
  obtain ⟨o, ho, rfl⟩ := List.mem_map.mp (hids.subset hid)
  exact hos.within o ho

/-- Taking over the distances of new occurrences changes nothing for the old ones. -/
theorem extends_adopt (hos : Numbered n n' ts os)
    (hids : (distances.map (·.1)).Subperm (os.map (·.id))) :
    (m.record n).Extends ((m.adopt distances).record n') where
  nextId_le := hos.le
  distance?_eq id hid := by
    have absent : ∀ d, (id, d) ∉ distances := fun d hmem =>
      absurd (distances_within hos hids id (List.mem_map_of_mem hmem)).1 (Nat.not_le_of_lt hid)
    have new : id ∉ distances.map (·.1) := fun hmem =>
      absurd (distances_within hos hids id hmem).1 (Nat.not_le_of_lt hid)
    apply Option.ext
    intro d
    refine (getElem?_insert_all (distances_nodup hos hids) m.distances id d).trans ?_
    simp [absent, new, Machine.record]

/-- No later occurrence has a distance yet. -/
theorem fresh_adopt (hos : Numbered n n' ts os)
    (hids : (distances.map (·.1)).Subperm (os.map (·.id)))
    (hfresh : ∀ id, n ≤ id → m.distances[id]? = none) :
    ∀ id, n' ≤ id → (m.adopt distances).distances[id]? = none := by
  intro id hid
  rw [Option.eq_none_iff_forall_not_mem]
  intro d hd
  rcases (getElem?_insert_all (distances_nodup hos hids) m.distances id d).mp hd with hmem | hold
  · have within := distances_within hos hids id (List.mem_map_of_mem hmem)
    exact absurd within.2 (Nat.not_lt.mpr hid)
  · rw [hfresh id (Nat.le_trans hos.le hid)] at hold
    nomatch hold.2

/-- What was found of numbered occurrences is on record. -/
theorem recorded_of_numbered {record : Record} (hos : Numbered n n' ts os) (hts : Spelled ts)
    (hnext : record.nextId = n')
    (hfound : ∀ o ∈ os, ∀ d, record.distance? o.id = some d ↔ (o.id, d) ∈ distances) :
    Resolution.Recorded record os distances where
  nodup := hos.nodup
  found := hfound
  numbered o ho := hnext ▸ (hos.within o ho).2
  spelled o ho := by
    obtain ⟨hmem, hkind⟩ := hos.written o ho
    obtain ⟨role, id, token⟩ := o
    cases role with
    | receiver => exact ⟨fun _ => (hts token hmem).lexeme_this hkind, fun _ => rfl⟩
    | read | assigned =>
      exact ⟨nofun, fun h => absurd h ((hts token hmem).lexeme_identifier hkind)⟩

/-- A machine that took over the distances of new occurrences has them on record. -/
theorem recorded_adopt (hos : Numbered n n' ts os) (hts : Spelled ts)
    (hids : (distances.map (·.1)).Subperm (os.map (·.id)))
    (hfresh : ∀ id, n ≤ id → m.distances[id]? = none) :
    Resolution.Recorded ((m.adopt distances).record n') os distances := by
  refine recorded_of_numbered hos hts rfl fun o ho d => ?_
  refine (getElem?_insert_all (distances_nodup hos hids) m.distances o.id d).trans ?_
  rw [hfresh o.id (hos.within o ho).1]
  simp

end

namespace Resolution

theorem ids_of_resolveProgram {program : List Stmt} {distances : Distances}
    (h : resolveProgram program = .ok distances) :
    (distances.map (·.1)).Subperm ((Stmt.occurrencesIn program).map (·.id)) := by
  obtain ⟨new, hnew, hids⟩ := statements_adds .outermost program .start
  unfold resolveProgram Walk.result at h
  split at h
  · injection h with h
    rw [← h, hnew]
    simpa [Walk.start] using hids
  · nomatch h

theorem ids_of_resolveExpression {value : Expr} {distances : Distances}
    (h : resolveExpression value = .ok distances) :
    (distances.map (·.1)).Subperm (value.occurrences.map (·.id)) := by
  obtain ⟨new, hnew, hids⟩ := expression_adds false value .start
  unfold resolveExpression Walk.result at h
  split at h
  · injection h with h
    rw [← h, hnew]
    simpa [Walk.start] using hids
  · nomatch h

end Resolution

/-! ## Admitted units -/

theorem spelled_takeWhile (source : String) :
    Spelled ((tokensOf source).takeWhile (·.kind != .eof)) :=
  fun _ hmem => isSpelled_of_mem ((List.takeWhile_sublist _).subset hmem)

section

variable {m : Machine} {n : OccurrenceId} {source : String} {distances : Distances}

/-- What taking over the distances of a unit means for the record of a machine. -/
structure Admits (m : Machine) (n n' : OccurrenceId) (distances : Distances) : Prop where
  extended : (m.record n).Extends ((m.adopt distances).record n')
  fresh : ∀ id, n' ≤ id → (m.adopt distances).distances[id]? = none

/-- A program that passed its checks is bound once its distances are taken over. -/
theorem bound_of_checkProgram (hfresh : ∀ id, n ≤ id → m.distances[id]? = none)
    {program : List Stmt} (h : (checkProgram n source).result = .ok (program, distances)) :
    Admits m n (checkProgram n source).nextId distances ∧
      Stmt.BoundAll ((m.adopt distances).record (checkProgram n source).nextId) [] program := by
  obtain ⟨-, hparsed, hresolved⟩ := check_ok h
  have reads := parseProgram_eq_ok.mp hparsed
  have hos := numbered_of_declarations reads
  have hts := spelled_takeWhile source
  have hids := Resolution.ids_of_resolveProgram hresolved
  exact ⟨⟨extends_adopt hos hids, fresh_adopt hos hids hfresh⟩,
    Resolution.bound_of_resolveProgram hresolved (wellNamed_of_declarations reads hts)
      (recorded_adopt hos hts hids hfresh)⟩

/-- An expression that passed its checks is bound once its distances are taken over. -/
theorem bound_of_checkExpression (hfresh : ∀ id, n ≤ id → m.distances[id]? = none)
    {value : Expr} (h : (checkExpression n source).result = .ok (value, distances)) :
    Admits m n (checkExpression n source).nextId distances ∧
      value.Bound ((m.adopt distances).record (checkExpression n source).nextId) [] := by
  obtain ⟨-, hparsed, hresolved⟩ := check_ok h
  have hos : Numbered .. := numbered_of_reads (parseExpression_eq_ok.mp hparsed)
  have hts := spelled_takeWhile source
  have hids := Resolution.ids_of_resolveExpression hresolved
  exact ⟨⟨extends_adopt hos hids, fresh_adopt hos hids hfresh⟩,
    Resolution.bound_of_resolveExpression hresolved (recorded_adopt hos hts hids hfresh)⟩

end

end Lox
