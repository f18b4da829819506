import DeltaSlice.Proofs.Dependence.Returns

/-!
Small steps that define triggers. With triggers the observer makes the same accesses as without them, and a
wait, an update request or a delayed notification writes one more variable, on behalf of the same node.
-/

namespace DeltaSlice

namespace Dependence

open Pdg

namespace Site

variable (p : Program) (s : Site)

/-- The trigger of the update routine that is requested. -/
def requested? : Option Variable :=
  s.after.top?.bind fun top =>
    (if s.isMember then top.value 0 0 else top.receiver).asInstance?.bind fun i =>
      (p.system.classOf? i).bind fun c => (c.routine? "update").map fun r => .ofResumption i [⟨r, []⟩]

/-- The trigger of the location after a wait. -/
def awaited? : Option Variable :=
  s.after.origin.map fun i => .ofResumption i (s.here.parent.child (s.index + 1) :: s.callers)

/-- The trigger that the step defines. -/
def trigger? : Option Variable :=
  if s.finished then
    match s.expr with
    | .call _ .requestUpdate _ => s.requested? p
    | .call _ .wait _ => s.awaited?
    | .notify _ _ (_ :: _) => s.after.scratch.event.map .event
    | _ => none
  else none

/-- The variables that the step writes, its trigger included. -/
def definitions : List Variable := (s.trigger? p).toList.foldl Transition.addVariable s.writes

/-- The accesses of the step, in order. -/
def signals : List Act :=
  (s.released p).map .forget ++ ((s.reads p).map (.read · (s.owner p).key) ++
    ((usedResult? p s).toList.map (fun v => .forget (.only v)) ++
      (s.definitions p).map (.write · (s.owner p).key)))

end Site

variable {p : Program} {s : Site} {g h : Pdg} {f f' : Focus}

namespace Site

theorem filter_accessesOf (rs ws : List Variable) : (s.accessesOf p rs ws).filter Act.isAccess =
    rs.map (.read · (s.owner p).key) ++ ((usedResult? p s).toList.map (fun v => .forget (.only v)) ++
      ws.map (.write · (s.owner p).key)) := by
  have kept : ∀ (vs : List Variable) (f : Variable → Act), (∀ v, (f v).isAccess = true) →
      (vs.map f).filter Act.isAccess = vs.map f := by
    intro vs f hf
    exact List.filter_eq_self.2 (by simp [hf])
  have made : ∀ (vs : List Variable) (f : Variable → Act), (∀ v, (f v).isAccess = true) →
      (if vs = [] then [] else .make (s.owner p).key :: vs.map f).filter Act.isAccess = vs.map f := by
    intro vs f hf
    split
    · rename_i empty
      simp [empty]
    · rw [List.filter_cons_of_neg (by simp [Act.isAccess]), kept vs f hf]
  unfold accessesOf
  rw [List.filter_append, List.filter_append, made _ _ fun _ => rfl, made _ _ fun _ => rfl,
    kept _ _ fun _ => rfl, List.append_assoc]

theorem mem_definitions {v : Variable} : v ∈ s.definitions p ↔ v ∈ s.writes ∨ s.trigger? p = some v := by
  rw [definitions, mem_foldl_addVariable, Option.mem_toList]

/-- Arguments and receivers are bound to variables of frames. -/
theorem isLocal_of_bound {v : Variable} (h : v ∈ s.bound) : v.isLocal = true := by
  unfold bound at h
  split at h
  · split at h
    · obtain rfl := List.mem_singleton.1 h
      unfold paramVariable
      dsimp only
      split
      · rfl
      · split <;> rfl
    · split at h
      · exact List.mem_singleton.1 h ▸ rfl
      · cases h
    · cases h
  · cases h

/-- Variables other than those of frames are written by the evaluation alone. -/
theorem written_of_writes {v : Variable} (h : v ∈ s.writes) (outer : v.isLocal = false) :
    v ∈ s.after.scratch.written := by
  have framed : ∀ {w : Variable}, v = w → w.isLocal = true → False := by
    rintro w rfl same
    rw [outer] at same
    cases same
  have unbound : v ∉ s.bound := fun hv => framed rfl (isLocal_of_bound hv)
  unfold writes at h
  split at h
  · split at h
    · split at h
      · cases h
      · exact (framed (List.mem_singleton.1 h) rfl).elim
    · exact ((mem_foldl_addVariable _ _).1 h).resolve_right unbound
  · rcases (mem_foldl_addVariable _ _).1 h with h | h
    · exact h
    · rcases List.mem_append.1 h with h | h
      · exact absurd h unbound
      · split at h
        · exact (framed (List.mem_singleton.1 h) rfl).elim
        · cases h
  · exact ((mem_foldl_addVariable _ _).1 h).resolve_right unbound

/-- What a step defines, its node is the only definition of. -/
theorem signals_defines {v : Variable} (hv : v ∈ s.definitions p) : Defines (s.signals p) v (s.owner p).key := by
  unfold signals
  rw [← List.append_assoc, ← List.append_assoc]
  refine defines_append _ (List.mem_map.2 ⟨v, hv, rfl⟩) fun x hx changes => ?_
  obtain ⟨w, -, rfl⟩ := List.mem_map.1 hx
  rw [changes_write.1 changes]

/-- A step forgets variables of frames only. -/
theorem released_local {what : Forgetting} (h : what ∈ s.released p) {v : Variable} (drops : what.drops v = true) :
    v.isLocal = true := by
  unfold released at h
  split at h
  · split at h
    · obtain rfl := List.mem_singleton.1 h
      cases v with
      | frame scope depth name => rfl
      | _ => cases drops
    · cases h
  · cases h

/-- Other variables than those of frames change only by being defined. -/
theorem signals_unchanged {v : Variable} (outer : v.isLocal = false) (undefined : v ∉ s.definitions p) :
    ∀ x ∈ s.signals p, ¬ x.Changes v := by
  intro x hx
  simp only [signals, List.mem_append, List.mem_map, Option.mem_toList] at hx
  rcases hx with ⟨what, hwhat, rfl⟩ | ⟨w, -, rfl⟩ | ⟨w, hw, rfl⟩ | ⟨w, hw, rfl⟩
  · rw [changes_forget]
    intro drops
    rw [released_local hwhat drops] at outer
    cases outer
  · exact changes_read
  · rw [changes_forget]
    simp only [Forgetting.drops, decide_eq_true_eq]
    rintro rfl
    obtain ⟨r, -, rfl⟩ := Option.map_eq_some_iff.1 hw
    cases outer
  · rw [changes_write]
    rintro rfl
    exact undefined hw

end Site

theorem updateTrigger_eq (h : updateTrigger p s f = .ok f') :
    ∃ v, s.requested? p = some v ∧ f' = f.addWritten v := by
  unfold updateTrigger at h
  unfold Site.requested?
  split at h
  · cases h
  · rename_i top htop
    dsimp only at h
    split at h
    · cases h
    · split at h
      · cases h
      · rename_i i hi
        split at h
        · cases h
        · rename_i c hc
          split at h
          · cases h
          · rename_i r hr
            exact ⟨_, by simp [htop, hi, hc, hr], (Except.ok.inj h).symm⟩

theorem waitTrigger_eq (h : waitTrigger s f = .ok f') : ∃ v, s.awaited? = some v ∧ f' = f.addWritten v := by
  unfold waitTrigger at h
  unfold Site.awaited?
  split at h
  · cases h
  · rename_i i hi
    exact ⟨_, by simp [hi], (Except.ok.inj h).symm⟩

/-- The bookkeeping up to the first access, with triggers. -/
def signalled (p : Program) (s : Site) (f : Focus) : Focus :=
  notifyEffect true s
    (match usedResult? p s with
    | some v => (returnEffect s f).addRead v
    | none => returnEffect s f)

theorem signalled_eq (p : Program) (s : Site) (f : Focus) : signalled p s f =
    notifyEffect true s { returnEffect s f with
      read := (usedResult? p s).toList.foldl Transition.addVariable f.read } := by
  have read : (returnEffect s f).read = f.read := by
    unfold returnEffect
    split
    · split <;> rfl
    · rfl
  unfold signalled
  cases usedResult? p s with
  | none => rw [← read]; rfl
  | some v => rw [← read]; rfl

/-- What the bookkeeping has come to when the first access is made. -/
structure Signalled (p : Program) (s : Site) (g : Pdg) (f : Focus) : Prop where
  performs : ∃ acts a, Performs g acts a f ∧ acts.filter Act.isAccess = (s.released p).map .forget
  read : f.read = s.reads p
  written : f.written = s.definitions p

theorem Signalled.of_opened (opened : Opened p s g f) (graph : f'.graph = f.graph) (node : f'.node = f.node)
    (read : f'.read = f.read)
    (written : f'.written = (s.trigger? p).toList.foldl Transition.addVariable f.written) :
    Signalled p s g f' := by
  refine ⟨⟨_, _, opened.performs.noted graph node, ?_⟩, read.trans opened.read, ?_⟩
  · have forgets : ((s.released p).map Act.forget).filter Act.isAccess = (s.released p).map .forget :=
      List.filter_eq_self.2 fun x hx => by
        obtain ⟨what, -, rfl⟩ := List.mem_map.1 hx
        rfl
    rw [List.filter_append, forgets]
    split <;> simp [Act.isAccess]
  · rw [written, opened.written, Site.definitions]

/-- Besides notifications, the trigger is written by calls only. -/
theorem callEffect_triggers (quiet : ∀ id target delays, s.expr ≠ .notify id target delays)
    (hf : callEffect p true s f = .ok f') :
    ∃ f₀, callEffect p false s f = .ok f₀ ∧
      f' = { f₀ with written := (s.trigger? p).toList.foldl Transition.addVariable f₀.written } := by
  have same : s.trigger? p = none → callEffect p true s f = callEffect p false s f →
      ∃ f₀, callEffect p false s f = .ok f₀ ∧
        f' = { f₀ with written := (s.trigger? p).toList.foldl Transition.addVariable f₀.written } := by
    intro none same
    exact ⟨f', same.symm.trans hf, by rw [none]; rfl⟩
  cases hs : s.expr with
  | call id r args =>
      cases hfin : s.finished with
      | false =>
          refine same (by simp [Site.trigger?, hfin]) ?_
          simp [callEffect, hs, hfin]
      | true =>
          cases r with
          | member m => exact same (by simp [Site.trigger?, hfin, hs]) (by simp [callEffect, hs, hfin])
          | wait =>
              simp only [callEffect, hs, hfin, if_true] at hf
              obtain ⟨v, hv, rfl⟩ := waitTrigger_eq hf
              exact ⟨f.ensureNode s.statement, by simp [callEffect, hs, hfin],
                by simp [Site.trigger?, hfin, hs, hv, Focus.addWritten]⟩
          | requestUpdate =>
              simp only [callEffect, hs, hfin, if_true] at hf
              obtain ⟨v, hv, rfl⟩ := updateTrigger_eq hf
              exact ⟨f.ensureNode s.statement, by simp [callEffect, hs, hfin],
                by simp [Site.trigger?, hfin, hs, hv, Focus.addWritten]⟩
  | notify id target delays => exact absurd hs (quiet id target delays)
  | _ => exact same (by simp [Site.trigger?, hs]) (by simp [callEffect, hs])

theorem signalled_notify (hg : g.Valid) {id : Nat} {target : Expr} {delays : List Expr}
    (hs : s.expr = .notify id target delays)
    (hf : callEffect p false s
      (bindArgument s ⟨g, none, s.after.scratch.read, s.after.scratch.written⟩) = .ok f) :
    Signalled p s g (signalled p s f) := by
  have hopen := opened_notify hg hs hf
  have start : (returnEffect s f).graph = g ∧ (returnEffect s f).node = none := by
    rw [bindArgument_eq] at hf
    simp only [callEffect, hs, Except.ok.injEq] at hf
    subst hf
    simp [returnEffect, hs]
  rw [opened_eq] at hopen
  rw [signalled_eq]
  have before : Focus.graph { returnEffect s f with
      read := (usedResult? p s).toList.foldl Transition.addVariable f.read } = g ∧
    Focus.node { returnEffect s f with
      read := (usedResult? p s).toList.foldl Transition.addVariable f.read } = none := start
  generalize { returnEffect s f with
    read := (usedResult? p s).toList.foldl Transition.addVariable f.read : Focus } = f₀ at before hopen ⊢
  cases hfin : s.finished with
  | false =>
      simp only [notifyEffect, hs, hfin, Bool.false_eq_true, if_false] at hopen ⊢
      exact .of_opened hopen rfl rfl rfl (by simp [Site.trigger?, hfin])
  | true =>
      simp only [notifyEffect, hs, hfin, Bool.false_eq_true, if_false, if_true] at hopen ⊢
      cases delays with
      | cons d ds =>
          cases event : s.after.scratch.event with
          | none => exact .of_opened hopen rfl rfl rfl (by simp [Site.trigger?, hfin, hs, event])
          | some e =>
              exact .of_opened hopen rfl rfl rfl (by simp [Site.trigger?, hfin, hs, event, Focus.addWritten])
      | nil =>
          -- The node of an immediate notification is there if it woke a process.
          obtain ⟨c, n, rs, ws⟩ := f₀
          obtain ⟨rfl, rfl⟩ : c = g ∧ n = none := before
          have still : s.trigger? p = none := by simp [Site.trigger?, hs, hfin]
          have released : s.released p = [] := by simp [Site.released, hs]
          have begun : Performs c [] none ⟨c, none, rs, ws⟩ := .start hg rs ws
          have rest : s.definitions p = s.writes := by rw [Site.definitions, still]; rfl
          simp only [List.isEmpty_nil, if_true]
          cases found : c.find? (.statement s.statement.key) with
          | none => exact ⟨⟨[], none, begun, by rw [released]; rfl⟩, hopen.read, hopen.written.trans rest.symm⟩
          | some n =>
              refine ⟨⟨[], some s.statement.key, ⟨begun.valid, begun.facts, begun.entry, begun.names, ?_⟩,
                by rw [released]; rfl⟩, hopen.read, hopen.written.trans rest.symm⟩
              simp [find?_idOf? found]

theorem signalled_of_callEffect (hg : g.Valid)
    (hf : callEffect p true s
      (bindArgument s ⟨g, none, s.after.scratch.read, s.after.scratch.written⟩) = .ok f) :
    Signalled p s g (signalled p s f) := by
  by_cases quiet : ∀ id target delays, s.expr ≠ .notify id target delays
  · obtain ⟨f₀, hf₀, rfl⟩ := callEffect_triggers quiet hf
    have hopen := opened_of_callEffect hg hf₀
    have unheard : ∀ triggers (f : Focus), notifyEffect triggers s f = f := by
      intro triggers f
      unfold notifyEffect
      split
      · rename_i hs
        exact absurd hs (quiet _ _ _)
      · rfl
    have returned : s.trigger? p = none ∨ ∀ f, returnEffect s f = f := by
      cases hs : s.expr with
      | ret id value => exact .inl (by simp [Site.trigger?, hs])
      | _ => exact .inr fun f => by simp only [returnEffect, hs]
    rw [opened_eq, unheard] at hopen
    rw [signalled_eq, unheard]
    obtain none | kept := returned
    · rw [none]
      exact .of_opened hopen rfl rfl rfl (by rw [none]; rfl)
    · rw [kept] at hopen ⊢
      exact .of_opened hopen rfl rfl rfl rfl
  · simp only [ne_eq, not_forall, not_not] at quiet
    obtain ⟨id, target, delays, hs⟩ := quiet
    exact signalled_notify hg hs (by simpa only [callEffect, hs] using hf)

/-- The observer makes the accesses of a site and then connects the node of the step. -/
theorem evaluatedAt_signals (hg : g.Valid) (heval : evaluatedAt p true s g = .ok h) :
    ∃ acts a f, Performs g acts a f ∧ acts.filter Act.isAccess = s.signals p ∧
      match f.node with
      | none => h = f.graph
      | some n => connect p s n f.graph = .ok h := by
  unfold evaluatedAt at heval
  obtain ⟨f₁, hf₁, heval⟩ := Success.bind_iff.1 heval
  have opened := signalled_of_callEffect hg hf₁
  obtain ⟨acts, a, performs, forgets⟩ := opened.performs
  obtain ⟨f, done, final⟩ := performs.concluded (p := p) heval
  rw [opened.read, opened.written] at done
  have unseen : ∀ (c : Bool) (a : String),
      (if c then [Act.make a] else []).filter Act.isAccess = [] := by
    intro c a
    cases c <;> rfl
  refine ⟨_, _, f, done, ?_, final⟩
  rw [List.filter_append, List.filter_append, forgets, unseen, List.append_nil, Site.filter_accessesOf, Site.signals]

end Dependence

end DeltaSlice
