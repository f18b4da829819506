import DeltaSlice.Model.Examples
import DeltaSlice.Proofs.Step.Regions
import DeltaSlice.Proofs.Termination.Coverage
import DeltaSlice.Proofs.Termination.Runs

/-!
Whatever the simulation runs comes to an end: the code of a process and every update routine, from every state that
can be reached. What observers can learn on the way is bounded. Read and write conditions get weaker, dependence
graphs say more, of finitely many variables and names. This needs neither loops that end nor waits.
-/

namespace DeltaSlice

open Pdg Dependence

/-- How weak the condition of an entry is; less than any, if there is none. -/
def Value.weakness : Option Value → Nat
  | none => 0
  | some c => if c.isTrue then 3 else if c.isFalse then 1 else 2

namespace Value

variable {o o' : Option Value} {x y : Value}

theorem weakness_le_three (o : Option Value) : weakness o ≤ 3 := by
  unfold weakness
  split
  · omega
  · split
    · omega
    · split <;> omega

theorem weakness_pos (x : Value) : 0 < weakness (some x) := by
  unfold weakness
  dsimp only
  split
  · omega
  · split <;> omega

theorem weakness_merge_le (o o' : Option Value) : weakness o ≤ weakness (Option.merge Value.or o o') := by
  cases o with
  | none => exact Nat.zero_le _
  | some x =>
      cases o' with
      | none => exact Nat.le_refl _
      | some y =>
          simp only [Option.merge_some_some, weakness, isTrue_or, isFalse_or]
          cases x.isTrue <;> cases y.isTrue <;> cases x.isFalse <;> cases y.isFalse <;> simp

theorem IsCondition.eq_of_weakness (hx : x.IsCondition) (hy : y.IsCondition)
    (same : weakness (some x) = weakness (some y)) : x = y := by
  rcases hx with rfl | ⟨b, rfl⟩ <;> rcases hy with rfl | ⟨c, rfl⟩
  · rfl
  · cases c <;> revert same <;> decide
  · cases b <;> revert same <;> decide
  · cases b <;> cases c <;> first | rfl | (revert same; decide)

/-- An entry that is joined with another one is as before, or weaker. -/
theorem merge_eq_or_weakness_lt (h : ∀ c, o = some c → c.IsCondition) :
    Option.merge Value.or o o' = o ∨ weakness o < weakness (Option.merge Value.or o o') := by
  rcases (weakness_merge_le o o').eq_or_lt with same | less
  · refine .inl ?_
    cases o with
    | none =>
        cases o' with
        | none => rfl
        | some y =>
            rw [Option.merge_none_left] at same
            exact absurd same (weakness_pos y).ne
    | some x =>
        cases o' with
        | none => rfl
        | some y => exact congrArg some ((isCondition_or x y).eq_of_weakness (h x rfl) same.symm)
  · exact .inr less

end Value

namespace Simulator

variable {s : Simulator} {first : State} {start t u r : Transition} {b : Bool} {track : Variable → Bool}
  {triggers : Bool}

/-- Nothing is learned. -/
theorem Contained.graded_nothing (h : s.Contained first start) (observes : s.setup.observer = .none) :
    s.Graded start (fun _ => 0) 0 where
  bounded _ := Nat.le_refl 0
  grows {t u i} ht hu _ composed differs := by
    have knows := knows_nothing observes
    have known := knows.occurs (knows.begins h.begins) ht
    rw [known] at composed differs
    exact absurd (congrArg Info.key (Except.ok.inj composed).symm) differs

section Conditions

/-- What is known is conditions of the variables `V`. -/
def KnowsOf (V : Set Variable) (i : Info) : Prop :=
  ∃ x, i = .readWrite x ∧ x.Conditional ∧ ∀ k v, v ∈ (x.store k).keys → v ∈ V

/-- How weak the conditions of the variables are. -/
def weakening (V : Finset Variable) : Info → Nat
  | .readWrite x => ∑ v ∈ V, (Value.weakness (x.read.get? v) + Value.weakness (x.written.get? v))
  | _ => 0

/-- The variables of which there may be conditions. -/
def accessible (s : Simulator) (start : Transition) : Set Variable :=
  (Stock.of s start).places s.program.system ∪ {v | ∃ x, start.info = .readWrite x ∧ ∃ k, v ∈ (x.store k).keys}

theorem accessible_finite (acyclic : s.program.system.Acyclic) (start : Transition) : (s.accessible start).Finite := by
  refine (Stock.of_finite start acyclic).places.union ?_
  by_cases known : ∃ x, start.info = .readWrite x
  · obtain ⟨x, hx⟩ := known
    refine (x.read.keys ++ x.written.keys).finite_toSet.subset ?_
    rintro v ⟨x', same, k, hv⟩
    obtain rfl := Info.readWrite.inj (hx.symm.trans same)
    cases k with
    | reading => exact List.mem_append_left _ hv
    | writing => exact List.mem_append_right _ hv
  · exact Set.finite_empty.subset fun v ⟨x, hx, _⟩ => (known ⟨x, hx⟩).elim

theorem mem_keys_of_get? {st : Store} {v : Variable} {c : Value} (h : st.get? v = some c) : v ∈ st.keys :=
  List.mem_map_of_mem (Table.mem_of_get? h)

theorem mem_keys_foldl_weaken {c : Value} (vs : List Variable) {st : Store} {w : Variable}
    (h : w ∈ (vs.foldl (fun s v => if track v then ReadWrite.weaken s v c else s) st).keys) :
    w ∈ st.keys ∨ w ∈ vs := by
  induction vs generalizing st with
  | nil => exact .inl h
  | cons v vs ih =>
      rcases ih h with h | h
      · dsimp only at h
        split at h
        · exact (ReadWrite.mem_keys_weaken.1 h).imp_right fun same : w = v => same ▸ List.mem_cons_self
        · exact .inl h
      · exact .inr (List.mem_cons_of_mem v h)

theorem mem_keys_merge {st st' : Store} (h : st.Conditional) (h' : st'.Conditional) {v : Variable}
    (hv : v ∈ (ReadWrite.merge st st').keys) : v ∈ st.keys ∨ v ∈ st'.keys := by
  obtain ⟨⟨w, c⟩, he, rfl⟩ := List.mem_map.1 hv
  have found := Table.get?_of_mem (h.merge h').1.nodup he
  rw [(h.merge h').2] at found
  cases hx : st.get? w with
  | some x => exact .inl (mem_keys_of_get? hx)
  | none =>
      cases hy : st'.get? w with
      | some y => exact .inr (mem_keys_of_get? hy)
      | none =>
          rw [hx, hy] at found
          cases found

/-- Code that does not end learns conditions of the variables that it may access. -/
theorem Contained.knowsOf (h : s.Contained first start) (observes : s.setup.observer = .readWrite track)
    (occurs : s.Occurs start b t) (goes : b = false) : KnowsOf (s.accessible start) t.info := by
  induction occurs with
  | start =>
      have knows := knows_conditions observes
      obtain ⟨x, hx, conditional⟩ := knows.begins h.begins
      exact ⟨x, hx, conditional, fun k v hv => .inr ⟨x, hx, k, hv⟩⟩
  | @step t r st occurs hst hr ih =>
      obtain ⟨x, hx, conditional, known⟩ := ih rfl
      obtain ⟨holds, confined⟩ := h.stays_within occurs rfl
      have confined := smallStep_confined hst hr goes confined holds (h.obeys occurs) h.untracked fun _ => .inr
      obtain ⟨st₀, rs, u, hadv, hu, learned, same, rfl⟩ := smallStep_mem hst hr
      have info : u.info = .readWrite x :=
        (advance_keeps (observes ▸ Observer.silent_readWrite track) hadv hu).1.trans hx
      rw [observes] at learned
      simp only [Observer.evaluated, info] at learned
      have read : ∀ v ∈ u.scratch.read, v ∈ (Stock.of s start).places s.program.system := by
        have read := confined.read
        rw [same] at read
        exact read
      have written : ∀ v ∈ u.scratch.written, v ∈ (Stock.of s start).places s.program.system := by
        have written := confined.written
        rw [same] at written
        exact written
      refine ⟨_, (Run.pure_result_iff.1 learned).symm, observeAccesses_conditional conditional u, fun k v hv => ?_⟩
      cases k with
      | reading => exact (mem_keys_foldl_weaken _ hv).elim (known .reading v) fun hv => .inl (read v hv)
      | writing => exact (mem_keys_foldl_weaken _ hv).elim (known .writing v) fun hv => .inl (written v hv)
  | merge _ _ _ composed _ iht ihu =>
      obtain ⟨x, hx, conditional, known⟩ := iht goes
      obtain ⟨y, hy, conditional', known'⟩ := ihu goes
      rw [hx, hy] at composed
      refine ⟨_, (Except.ok.inj composed).symm, conditional.compose conditional', fun k v hv => ?_⟩
      rw [store_compose] at hv
      exact (mem_keys_merge (conditional k) (conditional' k) hv).elim (known k v) (known' k v)

/-- Conditions get weaker where they are joined with others, of finitely many variables. -/
theorem Contained.graded_conditions (h : s.Contained first start) (observes : s.setup.observer = .readWrite track) :
    ∃ grade bound, s.Graded start grade bound := by
  have finite := s.accessible_finite h.acyclic start
  refine ⟨weakening finite.toFinset, ∑ v ∈ finite.toFinset, 6, ?_, ?_⟩
  · intro t ht
    obtain ⟨x, hx, -⟩ := h.knowsOf observes ht rfl
    rw [hx]
    refine Finset.sum_le_sum fun v _ => ?_
    have read := Value.weakness_le_three (x.read.get? v)
    have written := Value.weakness_le_three (x.written.get? v)
    omega
  · intro t u i ht hu _ composed differs
    obtain ⟨x, hx, conditional, -⟩ := h.knowsOf observes ht rfl
    obtain ⟨y, hy, conditional', known⟩ := h.knowsOf observes hu rfl
    rw [hx, hy] at composed
    obtain rfl := Except.ok.inj composed
    rw [hx] at differs ⊢
    have joined : ∀ k v, ((x.compose y).store k).get? v =
        Option.merge Value.or ((x.store k).get? v) ((y.store k).get? v) := by
      intro k v
      rw [store_compose]
      exact ((conditional k).merge (conditional' k)).2 v
    have le : ∀ k v, Value.weakness ((x.store k).get? v) ≤ Value.weakness (((x.compose y).store k).get? v) :=
      fun k v => joined k v ▸ Value.weakness_merge_le _ _
    obtain ⟨k, v, new⟩ : ∃ k v, ((x.compose y).store k).get? v ≠ (x.store k).get? v := by
      by_contra old
      simp only [not_exists, not_not] at old
      have keys := fun k => (conditional.compose conditional' k).key_eq (conditional k) (old k)
      exact differs (congrArg₂ (fun a b => a ++ " /" ++ b) (keys .reading) (keys .writing))
    have less : Value.weakness ((x.store k).get? v) < Value.weakness (((x.compose y).store k).get? v) := by
      rw [joined] at new ⊢
      exact (Value.merge_eq_or_weakness_lt fun c hc => (conditional k).condition hc).resolve_left new
    have inside : v ∈ finite.toFinset := by
      refine finite.mem_toFinset.2 ?_
      cases hv : (y.store k).get? v with
      | some c => exact known k v (mem_keys_of_get? hv)
      | none =>
          rw [joined, hv, Option.merge_none_right] at new
          exact absurd rfl new
    refine Finset.sum_lt_sum (fun w _ => Nat.add_le_add (le .reading w) (le .writing w)) ⟨v, inside, ?_⟩
    cases k with
    | reading => exact Nat.add_lt_add_of_lt_of_le less (le .writing v)
    | writing => exact Nat.add_lt_add_of_le_of_lt (le .reading v) less

end Conditions

section Graphs

/-- Graphs that say the same have the same key. -/
theorem key_eq_of_facts {g k : Pdg} (hg : g.Valid) (hk : k.Valid) (facts : k.facts = g.facts)
    (entry : k.entryId? = g.entryId?) : k.key = g.key := by
  refine (sameAs_of_content hk.consistent hg.consistent ?_).key_eq hk.consistent hg.consistent
  have listed : ∀ v, k.Lists v ↔ g.Lists v := fun v => by
    rw [lists_iff_writes hk, lists_iff_writes hg, Writes, Writes, facts]
  unfold content
  rw [facts, entry]
  simp only [listed]

/-- Graphs say more where they are joined with others, with finitely many names. -/
theorem Contained.graded_graphs (h : s.Contained first start) (observes : s.setup.observer = .pdg triggers) :
    ∃ grade bound, s.Graded start grade bound := by
  have finite := (Glossary.of_finite (s := s) start h.acyclic).facts
  refine ⟨fun i => ((Glossary.of s start).facts ∩ i.facts).ncard, (Glossary.of s start).facts.ncard, ?_, ?_⟩
  · exact fun _ => Set.ncard_le_ncard Set.inter_subset_left finite
  · intro t u i ht hu same composed differs
    obtain ⟨⟨g, hg, unfinished, covers⟩, -⟩ := h.sticks observes ht rfl
    obtain ⟨⟨g', hg', unfinished', -⟩, -⟩ := h.sticks observes hu rfl
    obtain ⟨⟨k, hk, -, covered⟩, -⟩ := h.sticks observes (.merge ht hu same composed (.inl rfl)) rfl
    have hk : i = .pdg k := hk
    subst hk
    rw [hg, hg'] at composed
    rw [hg] at differs ⊢
    obtain ⟨k', hk', same⟩ := Success.map_iff.1 composed
    obtain rfl := Info.pdg.inj same
    obtain ⟨valid, entry, facts, named⟩ :=
      compose_facts unfinished.valid unfinished'.valid (h.entered observes ht hg) (h.entered observes hu hg') hk'
    change ((Glossary.of s start).facts ∩ g.facts).ncard < ((Glossary.of s start).facts ∩ k'.facts).ncard
    refine Set.ncard_lt_ncard ⟨fun f hf => ⟨hf.1, facts ▸ .inl hf.2⟩, fun sub => differs ?_⟩ (finite.inter_of_left _)
    have more : g.facts ⊆ k'.facts := facts ▸ Set.subset_union_left
    refine key_eq_of_facts unfinished.valid valid (Set.Subset.antisymm (fun f hf => ?_) more) ?_
    · rcases covered.mem_facts hf with known | ⟨v, rfl, unknown⟩
      · exact (sub ⟨known, hf⟩).2
      · -- A variable without a name is not among those with definitions.
        intro d hd
        have listed : g.Lists v := Option.isSome_iff_exists.2 ⟨d, hd⟩
        obtain ⟨a, written⟩ := (lists_iff_writes unfinished.valid).1 listed
        exact absurd (covers.vars written) unknown
    · obtain ⟨n, hn⟩ := Option.isSome_iff_exists.1 (h.entered observes ht hg)
      obtain ⟨a, ha⟩ := idOf?_isSome.2 (unfinished.valid.entry n hn)
      unfold entryId?
      rw [entry, hn]
      exact (named ha).trans ha.symm

end Graphs

end Simulator

namespace System

variable {sys : System}

/-- Where the body of a routine stands, behind all that have none. -/
def place : Routine → Nat
  | .member m => m.index + 1
  | _ => 0

/-- Code calls only routines whose bodies stand before its own. -/
def isLayered (sys : System) : Bool :=
  sys.bodies.zipIdx.all fun (body, i) => body |> Expr.allEverywhere fun
    | .call _ (.member m) _ => m.index < i
    | _ => true

theorem acyclic_of_isLayered (layered : sys.isLayered = true) : sys.Acyclic := by
  have lower : ∀ {r q}, sys.Calls r q → place q < place r := by
    rintro r q ⟨path, id, args, he⟩
    obtain ⟨m, body, rfl, hbody, -⟩ := at?_eq_some he
    have tested := List.all_eq_true.1 layered (body, m.index) (List.mk_mem_zipIdx_iff_getElem?.2 hbody)
    have known : sys.body (.member m) = body := by simp [System.body, hbody]
    have before := test_at? (known ▸ tested) he
    cases q with
    | member k => exact Nat.succ_lt_succ (of_decide_eq_true before)
    | _ => exact Nat.succ_pos _
  have lowers : ∀ {r q}, Relation.TransGen sys.Calls r q → place q < place r := by
    intro r q h
    induction h with
    | single h => exact lower h
    | tail _ h ih => exact (lower h).trans ih
  exact fun r h => Nat.lt_irrefl _ (lowers h)

/-- The expressions that end the rounds of loops have no repetitions in them. -/
def isApart (sys : System) : Bool :=
  sys.bodies.all <| Expr.allEverywhere fun
    | .forLoop _ _ _ _ post _ => post.everywhere fun
      | .next .. => false
      | _ => true
    | _ => true

theorem not_repeatsInPost_of_isApart (apart : sys.isApart = true) : ¬ sys.RepeatsInPost := by
  rintro ⟨r, path, id, label, levels, loop, l, init, cond, post, body, he, target, inPost⟩
  obtain ⟨i, rest, -, drop, hloop, -⟩ := target?_tail target
  have positive : 0 < levels := by
    obtain ⟨k, -, -, rfl, -⟩ := target?_cases target
    omega
  have split : path = path.take (levels - 1) ++ (body.length + 2 : Int) :: i :: rest := by
    obtain ⟨inside, same⟩ := List.getElem?_eq_some_iff.1 inPost
    have cut : path.drop (levels - 1) = (body.length + 2 : Int) :: i :: rest := by
      rw [List.drop_eq_getElem_cons inside, same, Nat.sub_add_cancel positive, drop]
    rw [← cut, List.take_append_drop]
  have hpost : sys.at? ⟨r, (body.length + 2 : Int) :: i :: rest⟩ = some post := by
    refine (scope?_cons (scope?_of_at? hloop) ?_).1
    change elementAt? (init :: cond :: (body ++ [post])) ((body.length + 2 : Nat) : Int) = some post
    rw [elementAt?_natCast]
    simp
  have clean := test_bodies apart hloop
  cases test_below hpost clean (split ▸ he)

end System

namespace Simulator

variable {s : Simulator}

/-- How many small steps a run may have does not matter for where it starts. -/
theorem initial_bounded (s : Simulator) (fuel : Nat) : (s.bounded fuel).initial = s.initial := by
  have instances : ∀ ds g, (s.bounded fuel).initInstances g ds = s.initInstances g ds := by
    intro ds
    induction ds with
    | nil => exact fun _ => rfl
    | cons d ds ih =>
        intro g
        unfold initInstances
        split
        · rename_i undefined
          rw [show s.program.system.classOf? d.inst = none from undefined]
        · rename_i c hc
          rw [show s.program.system.classOf? d.inst = some c from hc]
          exact ih _
  unfold initial
  dsimp only
  rw [instances]
  rfl

/-- In a system without problems in which no routine calls itself and no repetition stands in the expression that
ends the rounds of its loop, every run of code comes to an end, if no variable is tracked. It begins in a state that
can be reached with some bound on small steps, be it the code of a process or an update routine. With a bound that is
large enough it succeeds or fails for good, and no larger bound changes what comes out. -/
theorem run_terminates {sys : System} {setup : Setup} (made : make sys setup = .ok s) (acyclic : sys.Acyclic)
    (apart : ¬ sys.RepeatsInPost) (untracked : ∀ v, setup.tracksVariable v = false)
    (observes : setup.observer = .none ∨ (∃ track, setup.observer = .readWrite track) ∨
      ∃ triggers, setup.observer = .pdg triggers)
    {first : State} (initial : s.initial = .ok first) {fuel : Nat} {start : Transition}
    (begins : (s.bounded fuel).Begins first start) :
    ∃ n, ∀ m, n ≤ m → (s.bounded m).run start = (s.bounded n).run start ∧
      ((s.bounded m).run start).result ≠ .error .exhausted := by
  have placed := placed_of_make made
  obtain ⟨-, same⟩ := make_cases made
  obtain rfl : sys = s.program.system := by rw [same]; rfl
  obtain rfl : setup = s.setup := by rw [same]
  have contained : (s.bounded fuel).Contained first start :=
    ⟨placed, (s.initial_bounded fuel).trans initial, begins, acyclic, untracked⟩
  obtain ⟨grade, bound, graded⟩ : ∃ grade bound, (s.bounded fuel).Graded start grade bound := by
    rcases observes with observes | ⟨track, observes⟩ | ⟨triggers, observes⟩
    · exact ⟨_, _, contained.graded_nothing observes⟩
    · exact contained.graded_conditions observes
    · exact contained.graded_graphs observes
  exact contained.run_finishes apart graded

end Simulator

/-- A loop that never ends and never waits, around loops of which nobody knows how often they go on. -/
def Examples.restless : System :=
  let c := field 0 "c"
  let x := field 1 "x"
  let serve := Routine.member ⟨0, "Top", "serve", [], false⟩
  single [c, x] ["e"]
    [⟨"serve", [.forLoop 0 "" (.empty 0) (ref c) (assign x (number 1))
      [.branch 0 (ref c) [.next 0 ""] [], notifyDelta (.event 0 "e")]], [], false⟩,
     ⟨"run", [.whileLoop 0 "" (const (.bool true)) [.whileLoop 0 "" (ref c) [call serve []]]], [], false⟩]

open Examples Simulator in
/-- The second thread runs without an end, in ever new rounds that bring nothing new. -/
theorem run_terminates_restless : ∃ s first start,
    make restless ⟨.pdg true, .immediate, fun _ => true, fun _ => false⟩ = .ok s ∧ s.initial = .ok first ∧
    (s.bounded 0).Begins first start ∧ start.proc.map (·.name) = some "run" ∧
    ∃ n, ∀ m, n ≤ m → (s.bounded m).run start = (s.bounded n).run start ∧
      ((s.bounded m).run start).result ≠ .error .exhausted := by
  obtain ⟨s, made, h⟩ := Success.exists_of_yields
    (x := make restless ⟨.pdg true, .immediate, fun _ => true, fun _ => false⟩)
    (c := fun s => Success.yields s.initial fun st => Success.yields ((s.bounded 0).ready st) fun ps =>
      ps.any fun p => p.name = "run" && Success.yields ((s.bounded 0).begin? p st) fun _ => true) (by decide +kernel)
  obtain ⟨first, initial, h⟩ := Success.exists_of_yields h
  obtain ⟨ps, ready, h⟩ := Success.exists_of_yields h
  obtain ⟨p, hp, h⟩ := List.any_eq_true.1 h
  obtain ⟨name, h⟩ := Bool.and_eq_true_iff.1 h
  obtain ⟨start, begin, -⟩ := Success.exists_of_yields h
  have begins : (s.bounded 0).Begins first start := .step .start ready hp begin
  refine ⟨s, first, start, made, initial, begins, ?_, ?_⟩
  · rw [(begin?_start begin).1, Option.map_some, of_decide_eq_true name]
  · exact run_terminates made (System.acyclic_of_isLayered (by decide +kernel))
      (System.not_repeatsInPost_of_isApart (by decide +kernel)) (fun _ => rfl) (.inr (.inr ⟨true, rfl⟩)) initial begins

end DeltaSlice
