import DeltaSlice.Proofs.Step.Begins
import DeltaSlice.Proofs.Step.Conducts

/-!
The conditions under which code begins. While code runs, every condition belongs to a control structure around the
place where the code stands, or was there before the code began. When the last routine ends, nothing is dropped. A
process begins its next step without conditions, but the update routines of one branch share the conditions: what a
return leaves behind in one of them stays for all that follow.
-/

namespace DeltaSlice

theorem Conditions.eq_start {c : Conditions} (none : c.current.nodes = []) (clear : c.callers = []) : c = .start := by
  obtain ⟨current, callers⟩ := c
  obtain rfl : current = [] := List.map_eq_nil_iff.1 none
  obtain rfl : callers = [] := clear
  rfl

/-- With a return, the routine ends under a condition of the node. -/
def System.Escapes (sys : System) (r : Routine) (n : Nat) : Prop :=
  ∃ path c id value, sys.at? ⟨r, path⟩ = some (.ret id value) ∧ sys.Encloses r path c n

/-- Every layer of conditions is in the order of the control structures of its routine. The layers are those of the
calls since the code began, and the oldest one may stand above what was there then. -/
def System.Layered (sys : System) (base : List Nat) : List Frame → ConditionLayer → List ConditionLayer → Prop
  | fs, l, [] => ∀ top ∈ fs.head?, top.Bears sys base l
  | [], _, _ :: _ => False
  | top :: below, l, l' :: callers => below ≠ [] ∧ top.Bears sys [] l ∧ sys.Layered base below l' callers

namespace System

variable {sys : System} {base : List Nat} {top caller caller' : Frame} {below rest fs fs' : List Frame}
  {l : ConditionLayer} {callers : List ConditionLayer} {c c' : Conditions} {main r : Routine} {n : Nat}

/-- Around code in which no control structure has a return, nothing escapes. -/
theorem not_escapes_of_code
    (all : sys.bodies.all (Expr.allEverywhere fun e => !e.isControl || e.everywhere (!·.isReturn)) = true) :
    ¬ sys.Escapes r n := by
  rintro ⟨path, c, id, value, hret, encloses⟩
  obtain ⟨q, i, up, j, e, rfl, he, controls⟩ : ∃ q i up j e, path = q ++ i :: up ∧ sys.at? ⟨r, i :: up⟩ = some e ∧
      e.Controls j n := by
    clear hret
    induction encloses with
    | here he controls => exact ⟨[], _, _, _, _, rfl, he, controls⟩
    | @above i _ _ _ _ ih =>
        obtain ⟨q, k, up, j, e, rfl, found⟩ := ih
        exact ⟨i :: q, k, up, j, e, rfl, found⟩
  have control : e.isControl = true := by
    by_contra plain
    exact Expr.not_controls (by simpa using plain) n controls
  have free : e.everywhere (!·.isReturn) = true := by simpa [control] using test_bodies all he
  cases test_below he free hret

namespace Layered

/-- A process begins with nothing. -/
theorem none : sys.Layered base fs [] [] := by
  cases fs <;> exact fun _ _ => Around.nil

/-- A routine begins above what is there. -/
theorem start {x : Value} (clear : callers = []) : sys.Layered l.nodes [.start r x] l callers := by
  rw [clear]
  rintro _ ⟨⟩
  exact List.suffix_refl _

/-- What is in the current layer belongs to something around the place where the code stands, or was there before. -/
theorem encloses (h : sys.Layered base (top :: below) l callers) (hn : n ∈ l.nodes) :
    sys.Encloses top.location.routine top.path top.comingFrom n ∨ callers = [] ∧ n ∈ base := by
  cases callers with
  | nil => exact ((h top rfl).encloses hn).symm.imp_right fun old => ⟨rfl, old⟩
  | cons l' callers =>
      obtain ⟨-, bears, -⟩ := h
      exact .inl ((bears.encloses hn).resolve_left (by simp))

/-- A caller goes on with its layer. -/
theorem resume (h : sys.Layered base (caller :: rest) l callers) (location : caller'.location = caller.location)
    (le : caller.comingFrom ≤ caller'.comingFrom) : sys.Layered base (caller' :: rest) l callers := by
  have bears : ∀ {base}, caller.Bears sys base l → caller'.Bears sys base l := by
    intro base bears
    rw [Frame.Bears, Frame.path, location]
    exact bears.mono le
  cases callers with
  | nil =>
      rintro _ ⟨⟩
      exact bears (h caller rfl)
  | cons l' callers => exact ⟨h.1, bears h.2.1, h.2.2⟩

/-- Small steps that go on keep the order of conditions. -/
theorem conducts (h : sys.Layered base fs c.current c.callers) (step : sys.Conducts fs c fs' c') :
    sys.Layered base fs' c'.current c'.callers := by
  cases step with
  | @within top top' below _ _ _ bears same =>
      rw [same]
      cases hc : c.callers with
      | nil =>
          rw [hc] at h
          rintro _ ⟨⟩
          exact bears base (h top rfl)
      | cons l' callers =>
          rw [hc] at h
          exact ⟨h.1, bears [] h.2.1, h.2.2⟩
  | call r x => exact ⟨by simp, Around.nil, h⟩
  | @back top caller caller' rest _ location le =>
      unfold Conditions.leaveCall
      split
      · rename_i l' callers hc
        rw [hc] at h
        exact h.2.2.resume location le
      · rintro _ ⟨⟩
        exact Around.nil

end Layered

/-- The outermost routine stays. -/
theorem Conducts.outermost (step : sys.Conducts fs c fs' c') (h : [main] <:+ fs.map (·.location.routine)) :
    [main] <:+ fs'.map (·.location.routine) := by
  cases step with
  | within same => simpa [same] using h
  | call r x => exact h.trans (List.suffix_cons _ _)
  | back location =>
      rcases List.suffix_cons_iff.1 h with alone | outer
      · simp at alone
      · simpa [location] using outer

end System

namespace Simulator

variable {s : Simulator} {sys : System} {setup : Setup} {first st : State} {start t u r : Transition}
  {is : List Instance} {runs : List (Transition × Transition)} {base : List Nat} {main : Routine} {i : Instance}
  {n : Nat}

/-- The update routine of an instance may end under a condition of the node. -/
def EndsUnder (s : Simulator) (i : Instance) (n : Nat) : Prop :=
  ∃ c f, s.program.system.classOf? i = some c ∧ c.routine? "update" = some f ∧ s.program.system.Escapes f n

/-- A process begins a step without conditions. -/
theorem begin?_conditions {p : Process} (h : s.begin? p st = .ok start) : start.scratch.conditions = .start := by
  obtain ⟨info, -, rfl⟩ := Success.map_iff.1 h
  rfl

theorem beginUpdate?_starts (unowned : t.proc = none) (h : s.beginUpdate? i main t = .ok start) :
    start.frames = [.start main (.lit (.inst i))] ∧ start.scratch = t.scratch := by
  obtain ⟨info, -, rfl⟩ := Success.map_iff.1 h
  refine ⟨?_, rfl⟩
  rw [Transition.frames, Transition.running?, show (t.beforeUpdate i main).proc = none from unowned]
  rfl

section

variable (distinct : s.program.system.Distinct) (cased : s.program.system.casesFit = true)

include distinct cased

/-- What small steps that go on keep holds wherever code comes to. -/
theorem Occurs.of_conducts {I : List Frame → Conditions → Prop}
    (kept : ∀ {fs fs' c c'}, s.program.system.Conducts fs c fs' c' → I fs c → I fs' c')
    (begun : I start.frames start.scratch.conditions) (h : s.Occurs start false t) :
    I t.frames t.scratch.conditions := by
  generalize going : false = b at h
  induction h with
  | start => exact begun
  | step _ hst hr ih => exact kept ((smallStep_conducts distinct cased hst).going going.symm _ hr) (ih rfl)
  | merge _ _ _ _ same iht ihu =>
      rcases same with rfl | rfl
      · exact iht going
      · exact ihu going

/-- Running code keeps the order of conditions. -/
theorem Occurs.layered (h : s.Occurs start false t) (begun : s.program.system.Layered base start.frames
    start.scratch.conditions.current start.scratch.conditions.callers) :
    s.program.system.Layered base t.frames t.scratch.conditions.current t.scratch.conditions.callers :=
  h.of_conducts (I := fun fs c => s.program.system.Layered base fs c.current c.callers) distinct cased
    (fun step before => before.conducts step) begun

/-- When the last routine has ended, there are conditions that were there before, and those under which it returned. -/
theorem Occurs.spent (h : s.Occurs start true t) (spent : t.frames = []) (begun : s.program.system.Layered base
    start.frames start.scratch.conditions.current start.scratch.conditions.callers)
    (outermost : [main] <:+ start.frames.map (·.location.routine)) : t.scratch.conditions.callers = [] ∧
    ∀ n ∈ t.scratch.conditions.current.nodes, n ∈ base ∨ s.program.system.Escapes main n := by
  generalize ended : true = b at h
  induction h with
  | start => cases ended
  | @step t r st before hst hr _ =>
      have spends := (smallStep_conducts distinct cased hst).ended ended.symm r hr spent
      obtain ⟨top, alone, last⟩ := spends.last
      have layered := before.layered distinct cased begun
      have outer := before.of_conducts distinct cased System.Conducts.outermost outermost
      rw [alone] at layered outer
      rw [spends.conditions]
      obtain rfl : main = top.location.routine := (List.cons.inj (outer.eq_of_length rfl)).1
      have callers : t.scratch.conditions.callers = [] := by
        cases hc : t.scratch.conditions.callers with
        | nil => rfl
        | cons l' ls =>
            rw [hc] at layered
            exact absurd rfl layered.1
      refine ⟨callers, fun n hn => ?_⟩
      rcases layered.encloses hn with around | ⟨-, old⟩
      · rcases last with body | ⟨id, value, hret⟩
        · rw [body] at around
          cases around
        · exact .inr ⟨_, _, id, value, hret, around⟩
      · exact .inl old
  | merge _ _ _ _ same iht ihu =>
      rcases same with rfl | rfl
      · exact iht spent ended
      · exact ihu spent ended

/-- An update routine leaves the conditions behind under which it returned. -/
theorem update_conditions (hbegin : s.beginUpdate? i main t = .ok start) (hrun : s.RunsTo start u)
    (unowned : t.proc = none) (idle : t.state.update = none) (clear : t.scratch.conditions.callers = []) :
    u.scratch.conditions.callers = [] ∧ ∀ n ∈ u.scratch.conditions.current.nodes,
      n ∈ t.scratch.conditions.current.nodes ∨ s.program.system.Escapes main n := by
  obtain ⟨asked, asks⟩ := exists_asks_of_run hrun
  obtain ⟨stays, ended⟩ := asks.update unowned idle hbegin
  have spent : u.frames = [] := by
    have own : u.proc = none := stays.proc.trans unowned
    rw [Transition.frames, Transition.running?, own, ended]
    rfl
  obtain ⟨frames, same⟩ := beginUpdate?_starts unowned hbegin
  refine hrun.occurs.spent distinct cased spent ?_ ?_
  · rw [frames, same]
    exact .start clear
  · rw [frames]
    exact List.suffix_refl _

/-- So do the update routines that run one after the other. -/
theorem Updates.conditions (h : s.Updates is t runs u) (unowned : t.proc = none) (idle : t.state.update = none)
    (clear : t.scratch.conditions.callers = []) : u.scratch.conditions.callers = [] ∧
    ∀ n ∈ u.scratch.conditions.current.nodes, n ∈ t.scratch.conditions.current.nodes ∨ ∃ j ∈ is, s.EndsUnder j n := by
  induction h with
  | nil => exact ⟨clear, fun n hn => .inl hn⟩
  | @cons i is c f t start e u runs hc hf hbegin hrun _ ih =>
      obtain ⟨kept, left⟩ := update_conditions distinct cased hbegin hrun unowned idle clear
      obtain ⟨asked, asks⟩ := exists_asks_of_run hrun
      obtain ⟨stays, -⟩ := asks.update unowned idle hbegin
      obtain ⟨kept, later⟩ := ih (stays.proc.trans unowned) rfl kept
      refine ⟨kept, fun n hn => ?_⟩
      rcases later n hn with old | ⟨j, hj, leaves⟩
      · rcases left n old with old | escapes
        · exact .inl old
        · exact .inr ⟨i, List.mem_cons_self, c, f, hc, hf, escapes⟩
      · exact .inr ⟨j, List.mem_cons_of_mem _ hj, leaves⟩

/-- An update routine begins with the conditions that those before it left behind. -/
theorem begin_conditions (tidy : st.Tidy s) (before : s.Updates is (s.beginEnd st) runs t)
    (hbegin : s.beginUpdate? i main t = .ok start) : start.scratch.conditions.callers = [] ∧
    ∀ n ∈ start.scratch.conditions.current.nodes, ∃ j ∈ is, s.EndsUnder j n := by
  obtain ⟨clear, left⟩ := before.conditions distinct cased rfl tidy.idle rfl
  obtain ⟨-, same⟩ := beginUpdate?_starts before.proc hbegin
  rw [same]
  exact ⟨clear, fun n hn => (left n hn).resolve_left (by simp [beginEnd, Transition.mapGlobal, Transition.start,
    Scratch.start, Conditions.start, ConditionLayer.nodes])⟩

/-- Code begins in the order of conditions. -/
theorem Begins.layered (placed : s.Placed) (initial : s.initial = .ok first) (begins : s.Begins first start) :
    s.program.system.Layered start.scratch.conditions.current.nodes start.frames
      start.scratch.conditions.current start.scratch.conditions.callers := by
  cases begins with
  | step _ _ _ hbegin =>
      rw [begin?_conditions hbegin]
      exact .none
  | update reached _ _ before _ _ hbegin =>
      obtain ⟨clear, -⟩ := begin_conditions distinct cased (reached.tidy placed initial) before hbegin
      obtain ⟨frames, -⟩ := beginUpdate?_starts before.proc hbegin
      rw [frames]
      exact .start clear

end

/-- Conditions stay with the code that they belong to, up to what returns leave behind. A process begins each of its
steps without conditions. An update routine may begin under conditions under which one that ran before it on the same
branch returned, and under no others. While code runs, the conditions of its current layer belong to control structures
around the place where it stands, or were there when it began. So where no update routine returns from within a
control structure, nothing is left behind, and all code begins without conditions. -/
theorem conditions_confined (made : make sys setup = .ok s) (distinct : sys.Distinct) (cased : sys.casesFit = true)
    (initial : s.initial = .ok first) :
    (∀ p st start, s.begin? p st = .ok start →
      start.scratch.conditions = .start ∧ start.condition = .bool true) ∧
    (∀ st is us i f runs t start, s.Reachable first st → st.global.updates = is ++ i :: us →
      s.Updates is (s.beginEnd st) runs t → s.beginUpdate? i f t = .ok start →
      start.scratch.conditions.callers = [] ∧
      ∀ n ∈ start.scratch.conditions.current.nodes, ∃ j ∈ is, s.EndsUnder j n) ∧
    (∀ start, s.Begins first start → ∀ t, s.Occurs start false t → ∀ top below, t.frames = top :: below →
      ∀ n ∈ t.scratch.conditions.current.nodes,
        sys.Encloses top.location.routine top.path top.comingFrom n ∨
        t.scratch.conditions.callers = [] ∧ n ∈ start.scratch.conditions.current.nodes) ∧
    ((∀ i n, ¬ s.EndsUnder i n) → ∀ start, s.Begins first start →
      start.scratch.conditions = .start ∧ start.condition = .bool true ∧
      ∀ t, s.Occurs start false t → ∀ top below, t.frames = top :: below →
        ∀ n ∈ t.scratch.conditions.current.nodes,
          sys.Encloses top.location.routine top.path top.comingFrom n) := by
  have placed := placed_of_make made
  obtain rfl : sys = s.program.system := by
    obtain ⟨-, rfl⟩ := make_cases made
    rfl
  have fresh : ∀ {t : Transition}, t.scratch.conditions = .start → t.condition = .bool true := by
    intro t none
    rw [Transition.condition, none]
    rfl
  have confined : ∀ start, s.Begins first start → ∀ t, s.Occurs start false t → ∀ top below,
      t.frames = top :: below → ∀ n ∈ t.scratch.conditions.current.nodes,
        s.program.system.Encloses top.location.routine top.path top.comingFrom n ∨
        t.scratch.conditions.callers = [] ∧ n ∈ start.scratch.conditions.current.nodes := by
    intro start begins t occurs top below frames n hn
    have layered := occurs.layered distinct cased (begins.layered distinct cased placed initial)
    rw [frames] at layered
    exact layered.encloses hn
  refine ⟨fun p st start hbegin => ⟨begin?_conditions hbegin, fresh (begin?_conditions hbegin)⟩,
    fun st is us i f runs t start reached _ before hbegin => ?_, confined, fun strict start begins => ?_⟩
  · exact begin_conditions distinct cased (reached.tidy placed initial) before hbegin
  · have none : start.scratch.conditions = .start := by
      cases begins with
      | step _ _ _ hbegin => exact begin?_conditions hbegin
      | update reached _ _ before _ _ hbegin =>
          obtain ⟨clear, left⟩ := begin_conditions distinct cased (reached.tidy placed initial) before hbegin
          refine Conditions.eq_start (List.eq_nil_iff_forall_not_mem.2 fun n hn => ?_) clear
          obtain ⟨j, -, leaves⟩ := left n hn
          exact strict j n leaves
    refine ⟨none, fresh none, fun t occurs top below frames n hn => ?_⟩
    refine (confined start begins t occurs top below frames n hn).resolve_right fun ⟨_, old⟩ => ?_
    rw [none] at old
    cases old

/-- Whether the given number of small steps can lead on to a transition that passes a check. -/
def goesWith (s : Simulator) : Nat → Transition → (Transition → Bool) → Bool
  | 0, t, c => c t
  | n + 1, t, c => Success.yields (s.smallStep t).result fun st =>
      !st.ends && st.results.any fun r => s.goesWith n r c

theorem exists_of_goesWith {c : Transition → Bool} (before : s.Occurs start false t) (h : s.goesWith n t c = true) :
    ∃ u, s.Occurs start false u ∧ c u = true := by
  induction n generalizing t with
  | zero => exact ⟨t, before, h⟩
  | succ n ih =>
      obtain ⟨st, hst, h⟩ := Success.exists_of_yields h
      obtain ⟨going, h⟩ := (Bool.and_eq_true _ _).mp h
      obtain ⟨r, hr, h⟩ := List.any_eq_true.1 h
      have step := before.step hst hr
      rw [show st.ends = false by simpa using going] at step
      exact ih step h

/-- Whether update routines that run one after the other can end with a transition that passes a check. -/
def updatesWith (s : Simulator) : List Instance → Transition → (Transition → Bool) → Bool
  | [], t, c => c t
  | i :: is, t, c => (s.program.system.classOf? i).any fun d => (d.routine? "update").any fun f =>
      Success.yields (s.beginUpdate? i f t) fun start => Success.yields (s.run start).result fun ended =>
        ended.any fun e => s.updatesWith is e.afterUpdate c

theorem exists_of_updatesWith {c : Transition → Bool} (h : s.updatesWith is t c = true) :
    ∃ runs u, s.Updates is t runs u ∧ c u = true := by
  induction is generalizing t with
  | nil => exact ⟨[], t, .nil, h⟩
  | cons i is ih =>
      obtain ⟨d, hd, h⟩ := (Option.any_eq_true _ _).1 h
      obtain ⟨f, hf, h⟩ := (Option.any_eq_true _ _).1 h
      obtain ⟨start, hbegin, h⟩ := Success.exists_of_yields h
      obtain ⟨ended, hrun, h⟩ := Success.exists_of_yields h
      obtain ⟨e, he, h⟩ := List.any_eq_true.1 h
      obtain ⟨runs, u, updates, passes⟩ := ih h
      exact ⟨_, u, .cons hd hf hbegin ⟨ended, hrun, he⟩ updates, passes⟩

end Simulator

namespace Examples

def switchable : Instance := ⟨0, "a"⟩
def follower : Instance := ⟨1, "b"⟩

def updateA : Routine := .member ⟨0, "A", "update", [], false⟩
def updateB : Routine := .member ⟨1, "B", "update", [], false⟩

/-- A thread asks for updates of two instances. The update of the first one has the given body, the update of the second
one sets a field. -/
def updating (body : Decl → List Expr) : System :=
  let u : Decl := ⟨0, "u", .system⟩
  let w := field 0 "w"
  let run := Routine.member ⟨2, "Top", "run", [], false⟩
  let top : Instance := ⟨2, "top"⟩
  let request := fun i => Expr.access 0 (const (.inst i)) (call .requestUpdate [])
  System.numbered {
    classes := [⟨"A", [], [], [updateA]⟩, ⟨"B", [⟨w, none⟩], [], [updateB]⟩, ⟨"Top", [], [], [run]⟩]
    instances := [⟨switchable, some 0⟩, ⟨follower, some 1⟩, ⟨top, some 2⟩]
    globals := [⟨u, none⟩]
    processes := [⟨"run", some top, some run, .thread, [], false⟩]
    bodies := [body u, [assign w (const (.bool true))], [request switchable, request follower]] }

/-- `if (u) u = false;` where `u` is unknown. -/
def clearing : System := updating fun u => [.branch 0 (ref u) [assign u (const (.bool false))] []]

/-- `if (u) return;` where `u` is unknown. -/
def escaping : System := updating fun u => [.branch 0 (ref u) [.ret 0 none] []]

end Examples

open Examples Simulator in
/-- Within the branch of the first update there is its condition, and the second update begins without it. -/
theorem conditions_confined_clearing : ∃ s first begun t top start, make clearing watching = .ok s ∧
    s.initial = .ok first ∧ (∀ i n, ¬ s.EndsUnder i n) ∧ s.Begins first begun ∧ s.Occurs begun false t ∧
    t.frames = [top] ∧ top.path = [1, 0] ∧ t.scratch.conditions.current.nodes = [0] ∧
    clearing.Encloses top.location.routine top.path top.comingFrom 0 ∧
    s.Begins first start ∧ start.origin = some follower ∧ start.scratch.conditions = .start ∧
    start.condition = .bool true := by
  obtain ⟨s, made, h⟩ := Success.exists_of_yields (x := make clearing watching) (c := fun s =>
    Success.yields s.initial fun first => (s.choose first 0).any fun st =>
      s.canEnd st && st.global.updates = [switchable, follower] &&
      Success.yields (s.beginUpdate? switchable updateA (s.beginEnd st)) (fun begun =>
        s.goesWith 4 begun fun t => t.frames.length = 1 && t.frames.all (·.path = [1, 0]) &&
          t.scratch.conditions.current.nodes = [0]) &&
      s.updatesWith [switchable] (s.beginEnd st) fun t =>
        Success.yields (s.beginUpdate? follower updateB t) fun start => start.origin = some follower)
    (by decide +kernel)
  obtain ⟨first, initial, h⟩ := Success.exists_of_yields h
  obtain ⟨st, chosen, h⟩ := (Option.any_eq_true _ _).1 h
  simp only [Bool.and_eq_true, decide_eq_true_eq] at h
  obtain ⟨⟨⟨ends, requested⟩, inside⟩, h⟩ := h
  obtain ⟨begun, hbegun, inside⟩ := Success.exists_of_yields inside
  obtain ⟨t, occurs, inside⟩ := exists_of_goesWith .start inside
  simp only [Bool.and_eq_true, decide_eq_true_eq, List.all_eq_true] at inside
  obtain ⟨⟨alone, place⟩, noted⟩ := inside
  obtain ⟨top, frames⟩ := List.length_eq_one_iff.1 alone
  obtain ⟨runs, u, updates, h⟩ := exists_of_updatesWith h
  obtain ⟨start, hstart, origin⟩ := Success.exists_of_yields h
  have reached : s.Reachable first st := Reachable.start.choose chosen
  have code : s.program.system = clearing := by
    obtain ⟨-, rfl⟩ := make_cases made
    rfl
  have whole : st.global.updates = [] ++ switchable :: [follower] := requested
  have begins : s.Begins first begun := .update reached ends whole .nil (by rw [code]; rfl) rfl hbegun
  have rest : st.global.updates = [switchable] ++ follower :: [] := requested
  have next : s.Begins first start := .update reached ends rest updates (by rw [code]; rfl) rfl hstart
  have strict : ∀ i n, ¬ s.EndsUnder i n := by
    rintro i n ⟨c, f, -, -, escapes⟩
    exact System.not_escapes_of_code (by rw [code]; decide) escapes
  obtain ⟨-, -, -, clean⟩ := conditions_confined made (System.numbered_distinct _) (by decide) initial
  obtain ⟨none, certain, -⟩ := clean strict start next
  obtain ⟨-, -, confined⟩ := clean strict begun begins
  have encloses := confined t occurs top [] frames 0 (by rw [noted]; exact List.mem_cons_self)
  exact ⟨s, first, begun, t, top, start, made, initial, strict, begins, occurs, frames,
    place top (by rw [frames]; exact List.mem_cons_self), noted, encloses, next, by simpa using origin, none, certain⟩

open Examples Simulator in
/-- The second update begins under the condition of the return in the first one. -/
theorem condition_left_behind : ∃ s first start, make escaping watching = .ok s ∧ s.initial = .ok first ∧
    s.Begins first start ∧ start.origin = some follower ∧ start.scratch.conditions.current.nodes = [0] ∧
    start.condition = .unknown := by
  obtain ⟨s, made, h⟩ := Success.exists_of_yields (x := make escaping watching) (c := fun s =>
    Success.yields s.initial fun first => (s.choose first 0).any fun st =>
      s.canEnd st && st.global.updates = [switchable, follower] &&
      s.updatesWith [switchable] (s.beginEnd st) fun t =>
        Success.yields (s.beginUpdate? follower updateB t) fun start => start.origin = some follower &&
          start.scratch.conditions.current.nodes = [0] && start.condition = .unknown) (by decide +kernel)
  obtain ⟨first, initial, h⟩ := Success.exists_of_yields h
  obtain ⟨st, chosen, h⟩ := (Option.any_eq_true _ _).1 h
  simp only [Bool.and_eq_true, decide_eq_true_eq] at h
  obtain ⟨⟨ends, requested⟩, h⟩ := h
  obtain ⟨runs, u, updates, h⟩ := exists_of_updatesWith h
  obtain ⟨start, hstart, h⟩ := Success.exists_of_yields h
  simp only [Bool.and_eq_true, decide_eq_true_eq] at h
  obtain ⟨⟨origin, left⟩, unknown⟩ := h
  have reached : s.Reachable first st := Reachable.start.choose chosen
  have code : s.program.system = escaping := by
    obtain ⟨-, rfl⟩ := make_cases made
    rfl
  have rest : st.global.updates = [switchable] ++ follower :: [] := requested
  exact ⟨s, first, start, made, initial, .update reached ends rest updates (by rw [code]; rfl) rfl hstart, origin, left,
    unknown⟩

end DeltaSlice
