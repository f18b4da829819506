import DeltaSlice.Proofs.Structured.Tame

/-!
Courses: all that a process does from a configuration to the end of its code. Code at states of the same
content goes on alike, so it is equally far from its end, and in a legible vocabulary no key of a state
comes up twice on a course.
-/

namespace DeltaSlice

namespace Structured

open Simulator

section Content

variable {w : Vocabulary}

theorem TameFrame.content {this : Instance} {f : Frame} (h : TameFrame w this f) : f.content = f := by
  have slot : ∀ l ∈ f.levels, (l.map fun x => x.map Value.content) = l := by
    intro l hl
    refine (List.map_congr_left fun x hx => ?_).trans (List.map_id l)
    cases x with
    | none => rfl
    | some v => exact congrArg some (h.slots l hl _ hx v rfl).content
  have levels : (f.levels.map fun l => l.map fun x => x.map Value.content) = f.levels :=
    (List.map_congr_left slot).trans (List.map_id _)
  unfold Frame.content
  rw [levels, h.receiver]
  obtain ⟨location, comingFrom, _, _⟩ := f
  obtain rfl := h.receiver
  rfl

theorem TameStore.content {s : Store} (h : TameStore w s) : Store.content s = s.get? := by
  funext v
  unfold Store.content
  cases hv : s.get? v with
  | none => rfl
  | some x => exact congrArg some (h.get? hv).content

end Content

theorem Called.of_mem {sys : System} {main q : Routine} {stack : List Routine}
    (h : Called sys main stack) (hq : q ∈ stack) : ∃ rest, Called sys main (q :: rest) := by
  induction h with
  | start =>
      obtain rfl := List.mem_singleton.1 hq
      exact ⟨[], .start⟩
  | call caller site ih =>
      rcases List.mem_cons.1 hq with rfl | hq
      · exact ⟨_, caller.call site⟩
      · exact ih hq

theorem Code.not_switch {sys : System} {main r : Routine} {rest : List Routine}
    (code : Code sys main) (called : Called sys main (r :: rest)) (path : Path) :
    sys.isSwitch ⟨r, path⟩ = false := by
  unfold System.isSwitch
  cases he : sys.at? ⟨r, path⟩ with
  | none => rfl
  | some e =>
      have := code r rest path e called he
      cases e with
      | switch => cases this
      | _ => rfl

namespace Setting

variable {S : Setting} {w : Vocabulary} {c c' d d' : Config} {t t' : Transition} {ends ends' : Bool}

section Tame

variable (code : Code S.sys S.proc.routine) (h : S.Tame w c)
include h

theorem Tame.called_of_mem {f : Frame} (hf : f ∈ c.proc.stack) :
    ∃ rest, Called S.sys S.proc.routine (f.location.routine :: rest) :=
  h.called.of_mem (List.mem_map_of_mem hf)

theorem Tame.within (speaks : Speaks w S.sys S.proc) (base : S.base.Within w) :
    (S.state c).Within w where
  values := h.values.within
  keys := base.keys
  pending := base.pending
  updates := base.updates
  procs := by
    intro ps hps
    rcases List.mem_or_eq_of_mem_set hps with hps | rfl
    · exact base.procs ps hps
    · refine ⟨fun l hl => ?_, fun f hf => ?_, h.locals.within⟩
      · rw [h.ready] at hl
        cases hl
      · obtain ⟨rest, called⟩ := h.called_of_mem hf
        have tame := h.frames f hf
        refine ⟨speaks.routines _ _ called, ?_, fun l hl x hx v hv => (tame.slots l hl x hx v hv).within⟩
        rw [tame.receiver]
        exact speaks.this
  update := base.update

include code

theorem Tame.casesKnown (shows : S.Shows t c) : t.CasesKnown S.sys := by
  have plain : ∀ f ∈ t.frames, ∀ path, S.sys.isSwitch ⟨f.location.routine, path⟩ = false := by
    intro f hf
    rw [shows.frames] at hf
    obtain ⟨rest, called⟩ := h.called_of_mem hf
    exact code.not_switch called
  refine ⟨fun f hf k hk => ?_, fun f hf => plain f (List.mem_of_mem_tail hf) _⟩
  rw [plain f hf] at hk
  cases hk

theorem Tame.fits (shows : S.Shows t c) : t.Fits S.sim.program := by
  intro top e htop he
  rw [shows.top?] at htop
  obtain ⟨rest, called⟩ := h.called_of_mem (List.mem_of_mem_head? htop)
  have case : S.sys.isCase top.location = false := by
    unfold System.isCase
    split
    · rfl
    · rw [code.not_switch called]
      rfl
  have structured := code _ rest _ e called he
  refine Eq.trans ?_ case.symm
  cases e with
  | arm => cases structured
  | _ => rfl

theorem Tame.plain (shows : S.Shows t c) : t.comparesLists S.sim.program = false := by
  unfold Transition.comparesLists
  rw [shows.top?]
  cases htop : c.proc.stack.head? with
  | none => rfl
  | some top =>
      have hmem := List.mem_of_mem_head? htop
      obtain ⟨rest, called⟩ := h.called_of_mem hmem
      cases he : S.sim.program.at? top.location with
      | none => simp [he]
      | some e =>
          have structured := code _ rest _ e called he
          have first := ((h.frames top hmem).value 0 0).not_list
          simp only [Option.any_some, he]
          unfold Frame.comparesLists
          split
          · simp [first]
          · simp [first]
          · cases structured
          · rfl

end Tame

/-- Two transitions of which one may stand for the other, whatever variable is asked for. -/
abbrev Like (S : Setting) (t' t : Transition) : Prop := Blurs S.sys (fun _ => true) t' t

/-- States with one key are alike. -/
theorem Tame.like (code : Code S.sys S.proc.routine) (h : S.Tame w c) (h' : S.Tame w c')
    (legible : w.Legible) (speaks : Speaks w S.sys S.proc) (base : S.base.Within w)
    (key : (S.state c').key = (S.state c).key) : S.Like (S.showing c') (S.showing c) := by
  have same := State.content_eq_of_key_eq legible (h'.within speaks base) (h.within speaks base) key
  have values : c'.values.get? = c.values.get? := by
    rw [← h'.values.content, ← h.values.content]
    exact congrArg StateContent.values same
  have proc : c'.proc.content = c.proc.content := by
    have := congrArg (·[S.proc.index]?) (congrArg StateContent.procs same)
    simpa [State.content, Setting.state, S.place] using this
  have stack : c'.proc.stack = c.proc.stack := by
    have frames : ∀ {c : Config}, S.Tame w c → c.proc.stack.map Frame.content = c.proc.stack :=
      fun h => (List.map_congr_left fun f hf => (h.frames f hf).content).trans (List.map_id _)
    rw [← frames h', ← frames h]
    exact congrArg ProcessContent.stack proc
  have locals : c'.proc.locals.get? = c.proc.locals.get? := by
    rw [← h'.locals.content, ← h.locals.content]
    exact congrArg ProcessContent.locals proc
  have known : ∀ {s' s : Store}, s'.get? = s.get? → Store.Covers (fun _ => true) s' s := by
    intro s' s heq v _
    rw [heq]
    exact .refl _
  have frames : ∀ l : List Frame, List.Forall₂ Frame.Covers l l := by
    intro l
    refine List.forall₂_same.2 fun f _ => ⟨rfl, rfl, List.forall₂_same.2 fun l _ =>
      List.forall₂_same.2 fun x _ => ?_, .refl _⟩
    cases x with
    | none => exact .none
    | some v => exact .some (.refl _)
  refine ⟨⟨rfl, ⟨⟨known values, fun _ => rfl, rfl, rfl⟩, ?_, ?_⟩, rfl⟩, h'.casesKnown code (S.shows_showing c')⟩
  · refine rel_set (List.forall₂_same.2 fun p _ => ⟨rfl, frames _, known rfl⟩) ⟨?_, ?_, known locals⟩ _
    · rw [h'.ready, h.ready]
    · rw [stack]
      exact frames _
  · change Option.Rel (ProcessState.Covers fun _ => true) S.base.update S.base.update
    cases S.base.update with
    | none => exact .none
    | some p => exact .some ⟨rfl, frames _, known rfl⟩

/-- Alike transitions have alike results. -/
theorem Like.goes (code : Code S.sys S.proc.routine) (tame : S.Tame w c) (like : S.Like t' t)
    (shows : S.Shows t c) (shows' : S.Shows t' c') (firm : c.Firm) (firm' : c'.Firm) (goes : S.Goes ends c d)
    (goes' : S.Goes ends' c' d') :
    ends' = ends ∧ ∃ u' u, S.Like u' u ∧ S.Shows u d ∧ S.Shows u' d' := by
  obtain ⟨st, u, hst, hres, rfl, hu⟩ := goes firm t shows
  obtain ⟨st', u', hst', hres', rfl, hu'⟩ := goes' firm' t' shows'
  have all : S.sim.tracking (fun _ => true) = S.sim := by
    have : (fun _ => true) = S.sim.setup.tracksVariable := funext fun v => (S.tracked v).symm
    rw [this]
    rfl
  have step := smallStep_approximates (fun v _ => S.tracked v) S.quiet (tame.fits code shows) like
    (shows'.firm firm') (tame.plain code shows) st hst
  rw [all, hst'] at step
  rcases step with ⟨st₁, hst₁, includes⟩ | ⟨place, what, herr⟩
  · obtain rfl := Except.ok.inj hst₁
    refine ⟨includes.ends, u', u, ?_, hu, hu'⟩
    obtain ⟨r', hr', rel⟩ := includes.results u (by simp [hres])
    rw [hres', List.mem_singleton] at hr'
    exact hr' ▸ rel
  · cases herr

/-- From a configuration, so many steps and a last one lead to the end of the code. -/
inductive Course (S : Setting) : Nat → Config → Config → Prop where
  | last {c d : Config} (firm : c.Firm) (ends : S.Goes true c d) : Course S 0 c d
  | next {n : Nat} {c c' d : Config} (firm : c.Firm) (step : S.Goes false c c') (rest : Course S n c' d) :
      Course S (n + 1) c d

namespace Course

theorem of_reaches (firm : c.Firm) (reaches : S.Reaches c c') (ends : S.Goes true c' d) : ∃ n, S.Course n c d := by
  induction reaches using Relation.ReflTransGen.head_induction_on with
  | refl => exact ⟨0, .last firm ends⟩
  | head step _ ih =>
      obtain ⟨n, rest⟩ := ih (step.firm firm)
      exact ⟨n + 1, .next firm step rest⟩

variable {n m : Nat}

theorem length_eq (code : Code S.sys S.proc.routine) (speaks : Speaks w S.sys S.proc)
    (h : S.Course n c d) (h' : S.Course m c' d') (tame : S.Tame w c) (like : S.Like t' t)
    (shows : S.Shows t c) (shows' : S.Shows t' c') : n = m := by
  induction h generalizing m c' t t' with
  | last firm ends =>
      cases h' with
      | last => rfl
      | next firm' step rest =>
          exact absurd (Like.goes code tame like shows shows' firm firm' ends step).1 (by decide)
  | next firm step rest ih =>
      cases h' with
      | last firm' ends =>
          exact absurd (Like.goes code tame like shows shows' firm firm' step ends).1 (by decide)
      | next firm' step' rest' =>
          obtain ⟨-, u', u, like, shows, shows'⟩ := Like.goes code tame like shows shows' firm firm' step step'
          exact congrArg (· + 1) (ih rest' (tame.of_goes code speaks firm step) like shows shows')

/-- In a legible vocabulary the key of a state tells how far the end of the code is. -/
theorem length_eq_of_key (code : Code S.sys S.proc.routine) (speaks : Speaks w S.sys S.proc)
    (legible : w.Legible) (base : S.base.Within w) (h : S.Course n c d) (h' : S.Course m c' d')
    (tame : S.Tame w c) (tame' : S.Tame w c') (key : (S.state c').key = (S.state c).key) : n = m :=
  length_eq code speaks h h' tame (Tame.like code tame tame' legible speaks base key)
    (S.shows_showing c) (S.shows_showing c')

end Course

end Setting

end Structured

end DeltaSlice
