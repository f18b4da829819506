import DeltaSlice.Proofs.Dependence.Control
import DeltaSlice.Proofs.Dependence.Graphs
import DeltaSlice.Proofs.Worklist.Distributive

/-!
Control edges of plain dependence graphs. A node gets all of them when it is evaluated for the first
time, from the controlling nodes that there are by then; an expression that gets its node later is
left out, also when the node is evaluated again under its control. So a control edge can only come
from a first evaluation, and it is certain where no sequence to the same state had a first evaluation
without it.
-/

namespace DeltaSlice

open Dependence Pdg

namespace Simulator

/-- What a control edge depends on: the nodes of statements and the nodes that have control edges. -/
inductive Mark where
  | made (c : String)
  | controlled (n : String)

def Mark.Holds (X : Set Fact) : Mark → Prop
  | made c => .node (.statement c) ∈ X
  | controlled n => ∃ b, .edge .control b (.statement n) ∈ X

def Mark.Comes (e : Evaluation) : Mark → Prop
  | made c => c ∈ e.made
  | controlled n => ∃ cs, e.node = some (n, cs)

def markContent : Content Evaluation Mark :=
  ⟨fun i => {x | x.Holds i.facts}, fun e X => X ∪ {x | x.Comes e}⟩

theorem Mark.holds_union (X Y : Set Fact) (x : Mark) :
    x.Holds (X ∪ Y) ↔ x.Holds X ∨ x.Holds Y := by
  cases x with
  | made c => rfl
  | controlled n => exact exists_or

theorem Mark.holds_mono {X Y : Set Fact} (h : X ⊆ Y) (x : Mark) (hx : x.Holds X) : x.Holds Y := by
  rw [← Set.union_eq_self_of_subset_left h, x.holds_union]
  exact .inl hx

section

variable {s : Simulator} {start t r : Transition} {c n : String}

theorem distributive_marks (plain : s.setup.observer = .pdg false) {g₀ : Pdg}
    (hstart : Carries start g₀) :
    s.Distributive start (Move.evaluation s.program) markContent where
  step := by
    intro t st r hocc hst hr
    obtain ⟨g, hg⟩ := hocc.carries plain hstart
    obtain ⟨g', hg', hlearn⟩ := hg.step plain hst hr
    ext x
    change x.Holds r.info.facts ↔ x.Holds t.info.facts ∨ x.Comes _
    rw [hg.facts, hg'.facts]
    cases x with
    | made c => exact hlearn.node_iff
    | controlled n => exact hlearn.controlled_iff hg.entered
  union := by
    intro e F hF
    obtain ⟨X₀, hX₀⟩ := hF
    ext x
    simp only [markContent, Set.mem_union, Set.mem_sUnion, Set.sUnion_image, Set.mem_iUnion,
      exists_prop]
    grind
  merge := by
    intro b t u i ht hu _ hi
    ext x
    change x.Holds i.facts ↔ x.Holds t.info.facts ∨ x.Holds u.info.facts
    rw [facts_merge plain hstart ht hu hi, Mark.holds_union]

theorem begin?_marks (plain : s.setup.observer = .pdg false) {p : Process} {st : State}
    (hbegin : s.begin? p st = .ok start) (x : Mark) : ¬ x.Holds start.info.facts := by
  obtain ⟨g, a, hg, hfacts⟩ := begin?_carries plain hbegin
  rw [hg.facts, hfacts]
  cases x with
  | made c => simp [Mark.Holds, fresh]
  | controlled n => simp [Mark.Holds, fresh]

theorem mem_foldl_marks (p : Program) (ms : List Move) (X : Set Mark) (x : Mark) :
    x ∈ ms.foldl (fun X m => markContent.effect (m.evaluation p) X) X ↔
      x ∈ X ∨ ∃ m ∈ ms, x.Comes (m.evaluation p) := by
  induction ms generalizing X with
  | nil => simp
  | cons m ms ih =>
      rw [List.foldl_cons, ih]
      simp [markContent, or_assoc]

/-- What holds after a single sequence is what came on the way. -/
theorem Route.marks (plain : s.setup.observer = .pdg false) {p : Process} {st : State}
    (hbegin : s.begin? p st = .ok start) {b : Bool} {ms : List Move} (h : s.Route start b ms t)
    (x : Mark) : x.Holds t.info.facts ↔ ∃ m ∈ ms, x.Comes (m.evaluation s.program) := by
  obtain ⟨g₀, -, hstart, -⟩ := begin?_carries plain hbegin
  have := Set.ext_iff.1 ((distributive_marks plain hstart).along h) x
  rw [mem_foldl_marks] at this
  exact this.trans (or_iff_right (begin?_marks plain hbegin x))

theorem Route.made_iff (plain : s.setup.observer = .pdg false) {p : Process} {st : State}
    (hbegin : s.begin? p st = .ok start) {b : Bool} {ms : List Move}
    (h : s.Route start b ms t) : .node (.statement c) ∈ t.info.facts ↔ Made s.program ms c :=
  h.marks plain hbegin (.made c)

theorem Route.evaluated_iff (plain : s.setup.observer = .pdg false) {p : Process} {st : State}
    (hbegin : s.begin? p st = .ok start) {b : Bool} {ms : List Move} (h : s.Route start b ms t) :
    (∃ b, .edge .control b (.statement n) ∈ t.info.facts) ↔ Evaluated s.program ms n :=
  h.marks plain hbegin (.controlled n)

/-- On no sequence to the state after `ms` was `n` evaluated for the first time without `c`. -/
def NeverMissed (s : Simulator) (start : Transition) (ms : List Move) (c n : String) : Prop :=
  ∀ ms' t, s.Walk start ms' t → t.state.key = (endOf start ms).state.key →
    Evaluated s.program ms' n → Linked s.program ms' c n

section Runs

variable (plain : s.setup.observer = .pdg false) {p : Process} {st : State}
variable (hbegin : s.begin? p st = .ok start)
variable (keys : s.KeysDecide start (Move.evaluation s.program))
include plain hbegin

/-- The control edges after a small step. -/
theorem Occurs.control_iff (ht : s.Occurs start false t) {st : SmallStep}
    (hst : (s.smallStep t).result = .ok st) (hr : r ∈ st.results) :
    .edge .control (.statement c) (.statement n) ∈ r.info.facts ↔
      .edge .control (.statement c) (.statement n) ∈ t.info.facts ∨
        ((∀ b, .edge .control b (.statement n) ∉ t.info.facts) ∧
          EvaluatesUnder s.program ⟨st, r⟩ c n ∧ .node (.statement c) ∈ r.info.facts) := by
  obtain ⟨g₀, -, hstart, -⟩ := begin?_carries plain hbegin
  obtain ⟨g, hg⟩ := ht.carries plain hstart
  obtain ⟨g', hg', hlearn⟩ := hg.step plain hst hr
  rw [hg.facts, hg'.facts]
  exact hlearn.control_iff hg.entered

theorem Occurs.mark_iff (ht : s.Occurs start false t) {st : SmallStep}
    (hst : (s.smallStep t).result = .ok st) (hr : r ∈ st.results) (x : Mark) :
    x.Holds r.info.facts ↔ x.Holds t.info.facts ∨ x.Comes (Move.evaluation s.program ⟨st, r⟩) := by
  obtain ⟨g₀, -, hstart, -⟩ := begin?_carries plain hbegin
  exact Set.ext_iff.1 ((distributive_marks plain hstart).step ht hst hr) x

include keys

/-- The marks of whatever occurs come from some sequences to its state, at least one of them. -/
theorem Occurs.represented {b : Bool} (ht : s.Occurs start b t) :
    ∃ W : Set (List Move × Transition), W.Nonempty ∧
      (∀ w ∈ W, s.Route start b w.1 w.2 ∧ w.2.state.key = t.state.key) ∧
      (∀ c, .node (.statement c) ∈ t.info.facts ↔ ∃ w ∈ W, Made s.program w.1 c) ∧
      ∀ n, (∃ b, .edge .control b (.statement n) ∈ t.info.facts) ↔
        ∃ w ∈ W, Evaluated s.program w.1 n := by
  obtain ⟨g₀, -, hstart, -⟩ := begin?_carries plain hbegin
  obtain ⟨W, hne, hW, hof⟩ := (distributive_marks plain hstart).represented keys ht
  have holds : ∀ x : Mark, x.Holds t.info.facts ↔ ∃ w ∈ W, x.Holds w.2.info.facts := by
    intro x
    have := Set.ext_iff.1 hof x
    simp only [Set.mem_iUnion, exists_prop] at this
    exact this
  refine ⟨W, hne, hW, ?_, ?_⟩
  · intro c
    refine (holds (.made c)).trans (exists_congr fun w => and_congr_right fun hw => ?_)
    exact (hW w hw).1.made_iff plain hbegin
  · intro n
    refine (holds (.controlled n)).trans (exists_congr fun w => and_congr_right fun hw => ?_)
    exact (hW w hw).1.evaluated_iff plain hbegin

/-- If a small step gives a node its first control edges, some sequence to the result evaluates the
node for the first time, and it has made a given node if there is one. -/
theorem Occurs.first (ht : s.Occurs start false t) {st : SmallStep}
    (hst : (s.smallStep t).result = .ok st) (hr : r ∈ st.results)
    (hfree : ∀ b, .edge .control b (.statement n) ∉ t.info.facts) :
    ∃ ms m w, s.Route start st.ends (ms ++ [m]) w ∧ w.state.key = r.state.key ∧
      m.evaluation s.program = Move.evaluation s.program ⟨st, r⟩ ∧ ¬ Evaluated s.program ms n ∧
      (Made s.program (ms ++ [m]) c ↔ .node (.statement c) ∈ r.info.facts) := by
  obtain ⟨W, ⟨w₀, hw₀⟩, hW, hmade, heval⟩ := ht.represented plain hbegin keys
  have hnode := ht.mark_iff plain hbegin hst hr (.made c)
  obtain ⟨w, hw, hc⟩ : ∃ w ∈ W, Made s.program w.1 c ↔ .node (.statement c) ∈ t.info.facts := by
    by_cases hold : Fact.node (.statement c) ∈ t.info.facts
    · obtain ⟨w, hw, hc⟩ := (hmade c).1 hold
      exact ⟨w, hw, iff_of_true hc hold⟩
    · exact ⟨w₀, hw₀, iff_of_false (fun hc => hold ((hmade c).2 ⟨w₀, hw₀, hc⟩)) hold⟩
  obtain ⟨st', r', -, -, hroute, hkey, hlook⟩ := (hW w hw).1.goesOn keys (hW w hw).2 ht hst hr
  refine ⟨w.1, ⟨st', r'⟩, r', hroute, hkey, hlook, ?_, ?_⟩
  · intro hn
    obtain ⟨b, hb⟩ := (heval n).2 ⟨w, hw, hn⟩
    exact hfree b hb
  · rw [made_snoc, hc, hlook]
    exact hnode.symm

/-- A statement controls a node only if some sequence to the state links them. -/
theorem Occurs.exists_linked {b : Bool} (ht : s.Occurs start b t)
    (hedge : .edge .control (.statement c) (.statement n) ∈ t.info.facts) :
    ∃ ms w, s.Route start b ms w ∧ w.state.key = t.state.key ∧ Linked s.program ms c n := by
  induction ht with
  | start => exact absurd ⟨_, hedge⟩ (begin?_marks plain hbegin (.controlled n))
  | @step t r st ht hst hr ih =>
      cases (ht.control_iff plain hbegin hst hr).1 hedge with
      | inl hold =>
          obtain ⟨ms, w, hw, hkey, hlinked⟩ := ih hold
          obtain ⟨st', r', -, -, hroute, hkey', -⟩ := hw.goesOn keys hkey ht hst hr
          exact ⟨_, r', hroute, hkey', linked_snoc.2 (.inl hlinked)⟩
      | inr hnew =>
          obtain ⟨hfree, hunder, hnode⟩ := hnew
          obtain ⟨ms, m, w, hw, hkey, hlook, hfirst, hmade⟩ :=
            ht.first plain hbegin keys (c := c) hst hr hfree
          refine ⟨_, w, hw, hkey, linked_snoc.2 (.inr ⟨hfirst, ?_, hmade.2 hnode⟩)⟩
          unfold EvaluatesUnder
          rw [hlook]
          exact hunder
  | @merge b t u v i ht hu hkey hi hv iht ihu =>
      have hvkey : v.state.key = t.state.key := by
        cases hv with
        | inl hv => rw [hv]
        | inr hv => rw [hv, hkey]
      obtain ⟨g₀, -, hstart, -⟩ := begin?_carries plain hbegin
      change Fact.edge _ _ _ ∈ i.facts at hedge
      rw [facts_merge plain hstart ht hu hi] at hedge
      cases hedge with
      | inl hedge =>
          obtain ⟨ms, w, hw, hwkey, hlinked⟩ := iht hedge
          exact ⟨ms, w, hw, hwkey.trans hvkey.symm, hlinked⟩
      | inr hedge =>
          obtain ⟨ms, w, hw, hwkey, hlinked⟩ := ihu hedge
          exact ⟨ms, w, hw, (hwkey.trans hkey.symm).trans hvkey.symm, hlinked⟩

/-- A statement controls a node that has been evaluated if no sequence to the state evaluated the
node for the first time without the statement. -/
theorem Occurs.control_of_linked {b : Bool} (ht : s.Occurs start b t)
    (always : ∀ ms w, s.Route start b ms w → w.state.key = t.state.key →
      Evaluated s.program ms n → Linked s.program ms c n)
    (heval : ∃ b, .edge .control b (.statement n) ∈ t.info.facts) :
    .edge .control (.statement c) (.statement n) ∈ t.info.facts := by
  induction ht with
  | start => exact absurd heval (begin?_marks plain hbegin (.controlled n))
  | @step t r st ht hst hr ih =>
      refine (ht.control_iff plain hbegin hst hr).2 ?_
      by_cases hold : ∃ b, Fact.edge .control b (.statement n) ∈ t.info.facts
      · -- Sequences to `t` go on to `r`, so what holds of those holds of these.
        refine .inl (ih ?_ hold)
        intro ms w hw hkey hn
        obtain ⟨st', r', -, -, hroute, hkey', -⟩ := hw.goesOn keys hkey ht hst hr
        exact (always _ r' hroute hkey' (evaluated_snoc.2 (.inl hn))).of_snoc hn
      · have hnew := ((ht.mark_iff plain hbegin hst hr (.controlled n)).1 heval).resolve_left hold
        obtain ⟨cs, hcs⟩ := hnew
        obtain ⟨ms, m, w, hw, hkey, hlook, hfirst, hmade⟩ :=
          ht.first plain hbegin keys (c := c) hst hr (not_exists.1 hold)
        have hlinked := always _ w hw hkey (evaluated_snoc.2 (.inr ⟨cs, hlook ▸ hcs⟩))
        have hlast := (linked_snoc.1 hlinked).resolve_left fun h => hfirst h.evaluated
        refine .inr ⟨not_exists.1 hold, ?_, hmade.1 hlast.2.2⟩
        unfold EvaluatesUnder
        rw [← hlook]
        exact hlast.2.1
  | @merge b t u v i ht hu hkey hi hv iht ihu =>
      have hvkey : v.state.key = t.state.key := by
        cases hv with
        | inl hv => rw [hv]
        | inr hv => rw [hv, hkey]
      obtain ⟨g₀, -, hstart, -⟩ := begin?_carries plain hbegin
      change ∃ b, Fact.edge _ b _ ∈ i.facts at heval
      change Fact.edge _ _ _ ∈ i.facts
      rw [facts_merge plain hstart ht hu hi] at heval ⊢
      cases exists_or.1 heval with
      | inl heval =>
          refine .inl (iht ?_ heval)
          intro ms w hw hwkey hn
          exact always ms w hw (hwkey.trans hvkey.symm) hn
      | inr heval =>
          refine .inr (ihu ?_ heval)
          intro ms w hw hwkey hn
          exact always ms w hw ((hwkey.trans hkey.symm).trans hvkey.symm) hn

section Explored

variable {taken ended : List Transition}
variable (hx : s.Explored start (fun i j => i.facts ⊆ j.facts) taken ended)
include hx

/-- What was explored where a sequence evaluates a node under the control of `c` has the edge. -/
theorem Explored.control_of_evaluated {pre : List Move} {st : SmallStep}
    (hpre : s.Walk start pre t) (hst : (s.smallStep t).result = .ok st) (hr : r ∈ st.results)
    (hunder : EvaluatesUnder s.program ⟨st, r⟩ c n) (hmade : Made s.program (pre ++ [⟨st, r⟩]) c)
    (never : s.NeverMissed start pre c n) : ∃ y ∈ if st.ends then ended else taken,
      y.state.key = r.state.key ∧
        .edge .control (.statement c) (.statement n) ∈ y.info.facts := by
  obtain ⟨g₀, -, hstart, -⟩ := begin?_carries plain hbegin
  have hmono : ∀ {i j : Info}, i.facts ⊆ j.facts → markContent.of i ⊆ markContent.of j :=
    fun hij x => x.holds_mono hij
  obtain ⟨x, hmem, hkey, hmarks⟩ :=
    (distributive_marks plain hstart).covered keys hmono hx (b := false) hpre
  obtain ⟨st', r', y, hst', hr', hlook, hy, hykey, hle⟩ :=
    hx.goesOn keys hmem hkey hpre.occurs hst hr
  have hocc := hx.visited x hmem
  refine ⟨y, hy, hykey, hle ((hocc.control_iff plain hbegin hst' hr').2 ?_)⟩
  by_cases hold : ∃ b, Fact.edge .control b (.statement n) ∈ x.info.facts
  · refine .inl (hocc.control_of_linked plain hbegin keys ?_ hold)
    intro ms w hw hwkey hn
    exact never ms w hw (by rw [hwkey, hkey, hpre.endOf_eq]) hn
  · refine .inr ⟨not_exists.1 hold, ?_, ?_⟩
    · unfold EvaluatesUnder
      rw [hlook]
      exact hunder
    · refine (hocc.mark_iff plain hbegin hst' hr' (.made c)).2 ?_
      rw [hlook]
      refine (made_snoc.1 hmade).imp_left fun hc => ?_
      have hnode := (Route.made_iff plain hbegin (b := false) hpre).2 hc
      exact hmarks (show Mark.made c ∈ markContent.of t.info from hnode)

/-- The edge stays while the sequence goes on. -/
theorem Explored.control_of_route {pre post : List Move} {m : Move} {b : Bool}
    (h : s.Route start b (pre ++ m :: post) t) (hunder : EvaluatesUnder s.program m c n)
    (hmade : Made s.program (pre ++ [m]) c) (never : s.NeverMissed start pre c n) :
    ∃ y ∈ if b then ended else taken, y.state.key = t.state.key ∧
      .edge .control (.statement c) (.statement n) ∈ y.info.facts := by
  induction post using List.reverseRecOn generalizing b t with
  | nil =>
      obtain ⟨u, hw, hst, rfl, hr, rfl⟩ := h.snoc_cases
      exact hx.control_of_evaluated plain hbegin keys hw hst hr hunder hmade never
  | append_singleton post m' ih =>
      rw [← List.cons_append, ← List.append_assoc] at h
      obtain ⟨u, hw, hst, rfl, hr, rfl⟩ := h.snoc_cases
      obtain ⟨x, hmem, hkey, hedge⟩ := ih (b := false) hw
      obtain ⟨st', r', y, hst', hr', -, hy, hykey, hle⟩ :=
        hx.goesOn keys hmem hkey hw.occurs hst hr
      refine ⟨y, hy, hykey, hle ?_⟩
      exact ((hx.visited x hmem).control_iff plain hbegin hst' hr').2 (.inl hedge)

end Explored

end Runs

/-- A small step that evaluates a node under the control of `c` on a sequence to `r` gives `r` the
control edge, if `c` has its node by then and no sequence to the same state missed it when the node
was evaluated for the first time. No control edge has another origin. -/
theorem controlEdges_of_makeStep (plain : s.setup.observer = .pdg false) {p : Process} {st : State}
    (hbegin : s.begin? p st = .ok start) (keys : s.KeysDecide start (Move.evaluation s.program))
    {ts : List Transition} (hstep : (s.makeStep p st).result = .ok ts) (hr : r ∈ ts) :
    ∃ g, r.info = .pdg g ∧
      (∀ pre m post c n, s.Leads start (pre ++ m :: post) r → EvaluatesUnder s.program m c n →
        Made s.program (pre ++ [m]) c → s.NeverMissed start pre c n →
        g.edge? .control (.statement c) (.statement n) = .ok true) ∧
      ∀ c n, g.edge? .control (.statement c) (.statement n) = .ok true →
        ∃ ms, s.Leads start ms r ∧ Linked s.program ms c n := by
  obtain ⟨taken, ended, hx, e, he, hstate, g, h, hg, hinfo, hfin⟩ :=
    makeStep_explored plain hbegin hstep hr
  obtain ⟨hvalid, hedges⟩ := finalize_valid_edges hg.valid hfin
  have hcontrol : ∀ c n, h.edge? .control (.statement c) (.statement n) = .ok true ↔
      .edge .control (.statement c) (.statement n) ∈ e.info.facts := by
    intro c n
    rw [hvalid.edge?_eq_true, hedges, hg.facts]
    simp
  refine ⟨h, hinfo, ?_, ?_⟩
  · intro pre m post c n hleads hunder hmade never
    obtain ⟨t, hcompletes, hkey⟩ := hleads
    obtain ⟨y, hy, hykey, hedge⟩ :=
      hx.control_of_route plain hbegin keys (b := true) hcompletes hunder hmade never
    have hye : y = e :=
      List.inj_on_of_nodup_map hx.nodup hy he ((hykey.trans hkey).trans (by rw [hstate]))
    exact (hcontrol c n).2 (hye ▸ hedge)
  · intro c n hedge
    obtain ⟨ms, w, hw, hkey, hlinked⟩ :=
      (hx.occurs e he).exists_linked plain hbegin keys ((hcontrol c n).1 hedge)
    exact ⟨ms, ⟨w, hw, hkey.trans (by rw [hstate])⟩, hlinked⟩

end

/-- Whether a node has control edges. -/
def hasControl (t : Transition) (n : String) : Bool :=
  match t.info with
  | .pdg g => (g.find? (.statement n)).any fun k => g.hasControl? k = some true
  | _ => false

theorem Carries.hasControl_eq {t : Transition} {g : Pdg} (h : Carries t g) {n : String}
    {b : NodeId} (hb : .edge .control b (.statement n) ∈ g.facts) : hasControl t n = true := by
  obtain ⟨m, k, hm, hk, hout⟩ := hb
  simp only [hasControl, h.info]
  cases hfind : g.find? (.statement n) with
  | none => exact absurd hk (find?_eq_none.1 hfind k)
  | some k' =>
      obtain rfl := h.valid.idOf?_inj (find?_idOf? hfind) hk
      obtain ⟨x, hx, -⟩ := idOf?_eq_some.1 hk
      have hsome : g.hasControl? k' = some (!x.incoming.control.isEmpty) := by
        simp [hasControl?, hx]
      have := (hasControl?_eq h.valid hk hsome).2 ⟨b, m, k', hm, hk, hout⟩
      simp [hsome, this]

/-- Nothing is missed if in a survey the node has no control edge yet where `ms` ends. -/
theorem neverMissed_of_surveys {s : Simulator} {start : Transition}
    (plain : s.setup.observer = .pdg false) {p : Process} {st : State}
    (hbegin : s.begin? p st = .ok start) {α : Type} [DecidableEq α] {look : Move → α} {l : Survey}
    (h : s.surveys look start l = true) {ms : List Move} {c n : String}
    (free : (l.all fun x => x.1 || x.2.state.key != (endOf start ms).state.key ||
      !hasControl x.2 n) = true) : s.NeverMissed start ms c n := by
  intro ms' t hw hkey hn
  obtain ⟨g₀, -, hstart, -⟩ := begin?_carries plain hbegin
  obtain ⟨g, hg⟩ := hw.occurs.carries plain hstart
  obtain ⟨b, hb⟩ := (Route.evaluated_iff plain hbegin (b := false) hw).2 hn
  rw [hg.facts] at hb
  have := List.all_eq_true.1 free _ (hw.occurs.mem_of_surveys h)
  simp [hkey, hg.hasControl_eq hb] at this

end Simulator

open Examples Simulator in
theorem controlEdges_of_makeStep_guarded :
    ∃ start ts r g pre m post,
      (untracked guarded (.pdg false)).begin? runner atStart = .ok start ∧
      (untracked guarded (.pdg false)).KeysDecide start (Move.evaluation (.ofSystem guarded)) ∧
      ((untracked guarded (.pdg false)).makeStep runner atStart).result = .ok ts ∧ r ∈ ts ∧
      r.info = .pdg g ∧ (untracked guarded (.pdg false)).Leads start (pre ++ m :: post) r ∧
      EvaluatesUnder (.ofSystem guarded) m condition body ∧
      Made (.ofSystem guarded) (pre ++ [m]) condition ∧
      (untracked guarded (.pdg false)).NeverMissed start pre condition body ∧
      g.edge? .control (.statement condition) (.statement body) = .ok true := by
  obtain ⟨start, ts, r, g, ms, hbegin, hts, hr, hg, hleads, h⟩ := exists_of_arrives
    (s := untracked guarded (.pdg false)) (p := runner) (t := atStart) (l := List.replicate 11 0)
    (c := fun start ms _ =>
      let l := (untracked guarded (.pdg false)).survey 100 [] [(false, start)]
      match ms.drop 8 with
      | m :: _ => (untracked guarded (.pdg false)).surveys
          (Move.evaluation (.ofSystem guarded)) start l &&
        EvaluatesUnder (.ofSystem guarded) m condition body &&
        Made (.ofSystem guarded) (ms.take 8 ++ [m]) condition &&
        l.all fun x => x.1 || x.2.state.key != (endOf start (ms.take 8)).state.key ||
          !hasControl x.2 body
      | [] => false) (by decide +kernel)
  cases hdrop : ms.drop 8 with
  | nil => simp [hdrop] at h
  | cons m post =>
      simp only [hdrop, Bool.and_eq_true, decide_eq_true_eq] at h
      obtain ⟨⟨⟨hsurvey, hunder⟩, hmade⟩, hfree⟩ := h
      have hms : ms.take 8 ++ m :: post = ms := by rw [← hdrop, List.take_append_drop]
      have keys := keysDecide_of_surveys hsurvey
      have never := neverMissed_of_surveys (c := condition) rfl hbegin hsurvey hfree
      obtain ⟨g', hg', hedges, -⟩ := controlEdges_of_makeStep rfl hbegin keys hts hr
      rw [hg] at hg'
      obtain rfl := Info.pdg.inj hg'
      rw [← hms] at hleads
      exact ⟨start, ts, r, g, ms.take 8, m, post, hbegin, keys, hts, hr, hg, hleads, hunder, hmade,
        never, hedges _ _ _ _ _ hleads hunder hmade never⟩

/-- `do x = 1; while (u);` where `u` is unknown. -/
def Examples.repeated : System :=
  let u := field 0 "u"
  let x := field 1 "x"
  single [u, x] [] [⟨"run", [.doLoop 0 "" (ref u) [assign x (number 1)]], [], false⟩]

open Examples Simulator in
/-- In its second round the loop evaluates its body under the control of the condition, which has its
node from the first round, but the body is not connected with it. -/
theorem controlEdge_missing_repeated :
    ∃ start ts r g pre m post,
      (untracked repeated (.pdg false)).begin? runner atStart = .ok start ∧
      ((untracked repeated (.pdg false)).makeStep runner atStart).result = .ok ts ∧ r ∈ ts ∧
      r.info = .pdg g ∧ (untracked repeated (.pdg false)).Leads start (pre ++ m :: post) r ∧
      EvaluatesUnder (.ofSystem repeated) m condition body ∧
      Made (.ofSystem repeated) pre condition ∧
      g.edge? .control (.statement condition) (.statement body) = .ok false := by
  obtain ⟨start, ts, r, g, ms, hbegin, hts, hr, hg, hleads, h⟩ := exists_of_arrives
    (s := untracked repeated (.pdg false)) (p := runner) (t := atStart)
    (l := List.replicate 17 0 ++ [1, 0])
    (c := fun _ ms g => match ms.drop 14 with
      | m :: _ => EvaluatesUnder (.ofSystem repeated) m condition body &&
        Made (.ofSystem repeated) (ms.take 14) condition &&
        Success.yields (g.edge? .control (.statement condition) (.statement body)) (!·)
      | [] => false) (by decide +kernel)
  cases hdrop : ms.drop 14 with
  | nil => simp [hdrop] at h
  | cons m post =>
      simp only [hdrop, Bool.and_eq_true, decide_eq_true_eq] at h
      obtain ⟨⟨hunder, hmade⟩, hedge⟩ := h
      obtain ⟨b, hb, hfalse⟩ := Success.exists_of_yields hedge
      obtain rfl : b = false := by simpa using hfalse
      have hms : ms.take 14 ++ m :: post = ms := by rw [← hdrop, List.take_append_drop]
      rw [← hms] at hleads
      exact ⟨start, ts, r, g, ms.take 14, m, post, hbegin, hts, hr, hg, hleads, hunder, hmade,
        hb⟩

end DeltaSlice
