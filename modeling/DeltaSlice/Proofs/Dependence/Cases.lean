import DeltaSlice.Proofs.Dependence.ControlEdges
import DeltaSlice.Proofs.Dependence.Returns
import DeltaSlice.Proofs.Model.Numbered
import DeltaSlice.Proofs.Keys.Reading

/-!
Control stays inside. What an expression controls lies next to it or below it: in the structure whose
part it is, or in a routine that is called there. So whatever is controlled by something inside a
part of a structure lies inside the same part. In particular the label of a case controls nothing in
another case, also where the other case is fallen into.
-/

namespace DeltaSlice

open Dependence Pdg

namespace Program

variable {p : Program} {r : Routine} {e : Expr}

theorem formsOwnNode_of_holdsStatements {q : Expr} (hq : p.parent? r e = some q)
    (h : q.holdsStatements = true) : p.formsOwnNode r (some e) = true := by
  have top : p.isTopOfStatement r e = true := by
    cases q with
    | access => cases h
    | _ => simp only [isTopOfStatement, isListed, hq, h]
  unfold formsOwnNode
  cases q with
  | access => cases h
  | _ => cases e <;> simp only [hq, top]

theorem holdsStatements_of_controllingIndex? {q : Expr} {i c : Int}
    (h : q.controllingIndex? i = some c) : q.holdsStatements = true := by
  cases q with
  | branch | switch | forLoop | whileLoop | doLoop | arm => rfl
  | _ => cases h

theorem ownPath_suffix (r : Routine) (path : Path) : p.ownPath r path <:+ path := by
  induction path with
  | nil => exact List.suffix_refl _
  | cons i up ih =>
      unfold ownPath
      split
      · exact List.suffix_refl _
      · exact ih.trans (List.suffix_cons i up)

/-- The way up to a node of its own does not go past one. -/
theorem suffix_ownPath {path own : Path} (hsub : own <:+ path)
    (hown : p.formsOwnNode r (p.at? ⟨r, own⟩) = true) : own <:+ p.ownPath r path := by
  induction path with
  | nil => exact hsub
  | cons i up ih =>
      cases List.suffix_cons_iff.1 hsub with
      | inl heq =>
          unfold ownPath
          rw [← heq, if_pos hown]
      | inr hup =>
          unfold ownPath
          split
          · exact hsub
          · exact ih hup

/-- What controls an expression stands beside it or beside something above it with a node of its own,
or is the call of its routine. -/
theorem WellIndexed.controllers_cases (h : p.WellIndexed) {rest st : Stack} {path : Path}
    (hst : some st ∈ p.controllers r rest path (p.at? ⟨r, path⟩)) :
    (∃ i j up, i :: up <:+ path ∧ p.formsOwnNode r (p.at? ⟨r, i :: up⟩) = true ∧
      st = ⟨r, j :: up⟩ :: rest) ∨ (rest ≠ [] ∧ st = p.trim rest) := by
  have outermost : some st ∈ [if rest.isEmpty then none else some (p.trim rest)] →
      rest ≠ [] ∧ st = p.trim rest := by
    intro hmem
    have := List.mem_singleton.1 hmem
    cases rest with
    | nil => cases this
    | cons l rest => exact ⟨by simp, Option.some.inj this⟩
  induction path with
  | nil => exact .inr (outermost hst)
  | cons i up ih =>
      cases he : p.at? ⟨r, i :: up⟩ with
      | none =>
          rw [he] at hst
          exact .inr (outermost hst)
      | some e =>
          have hparent := h.parent?_eq he
          rw [he] at hst
          unfold controllers at hst
          simp only [hparent] at hst
          have here : ∀ {q : Expr} {j : Int}, p.at? ⟨r, up⟩ = some q → q.holdsStatements = true →
              ∃ i' j' up', i' :: up' <:+ i :: up ∧
                p.formsOwnNode r (p.at? ⟨r, i' :: up'⟩) = true ∧
                (⟨r, j :: up⟩ :: rest : Stack) = ⟨r, j' :: up'⟩ :: rest := by
            intro q j hq hheld
            refine ⟨i, j, up, List.suffix_refl _, ?_, rfl⟩
            rw [he]
            exact formsOwnNode_of_holdsStatements (hparent.trans hq) hheld
          have above : some st ∈ p.controllers r rest up (p.at? ⟨r, up⟩) →
              (∃ i' j up', i' :: up' <:+ i :: up ∧ p.formsOwnNode r (p.at? ⟨r, i' :: up'⟩) = true ∧
                st = ⟨r, j :: up'⟩ :: rest) ∨ (rest ≠ [] ∧ st = p.trim rest) := by
            intro hmem
            refine (ih hmem).imp_left fun found => ?_
            obtain ⟨i', j, up', hsub, hown, heq⟩ := found
            exact ⟨i', j, up', hsub.trans (List.suffix_cons i up), hown, heq⟩
          rcases List.mem_append.1 hst with hst | hst
          · split at hst
            · split at hst
              · obtain rfl := Option.some.inj (List.mem_singleton.1 hst)
                exact .inl (here (by assumption) rfl)
              · cases hst
            · cases hst
          · cases hq : p.at? ⟨r, up⟩ with
            | none =>
                rw [hq] at hst above
                exact above hst
            | some q =>
                simp only [hq, Option.bind_some] at hst
                cases hc : q.controllingIndex? i with
                | none =>
                    simp only [hc] at hst
                    rw [hq] at above
                    exact above hst
                | some c =>
                    simp only [hc] at hst
                    have hheld := holdsStatements_of_controllingIndex? hc
                    split at hst
                    · rcases List.mem_cons.1 hst with hst | hst
                      · obtain rfl := Option.some.inj hst
                        exact .inl (here hq hheld)
                      · rw [hq] at above
                        exact above hst
                    · obtain rfl := Option.some.inj (List.mem_singleton.1 hst)
                      exact .inl (here hq hheld)

/-- A start of the key of a controlling stack that ends with a comma is one of the key of what is
controlled. -/
theorem WellIndexed.starts_of_controllers (h : p.WellIndexed) {rest st : Stack} {path w : Path}
    (hst : some st ∈ p.controllers r rest path (p.at? ⟨r, path⟩)) {o : Option Instance} {a : String}
    (hstart : Starts (a.push ',') (StatementId.point o st).key)
    (hw : w = path ∨ w = p.ownPath r path) :
    Starts (a.push ',') (StatementId.point o (⟨r, w⟩ :: rest)).key := by
  cases h.controllers_cases hst with
  | inl beside =>
      obtain ⟨i, j, up, hsub, hown, rfl⟩ := beside
      have below : i :: up <:+ w := by
        cases hw with
        | inl hw => exact hw ▸ hsub
        | inr hw => exact hw ▸ suffix_ownPath hsub hown
      obtain ⟨q, rfl⟩ := below
      exact (StatementId.starts_before_of_comma o rest r hstart).trans
        (StatementId.starts_key o rest r [] q i up)
  | inr called =>
      obtain ⟨hne, rfl⟩ := called
      cases rest with
      | nil => exact absurd rfl hne
      | cons l rest =>
          obtain ⟨f, path'⟩ := l
          have hsuffix := p.ownPath_suffix f path'
          simp only [trim] at hstart
          cases hpath : p.ownPath f path' with
          | nil =>
              rw [hpath] at hstart
              exact (StatementId.starts_before_nil_of_comma o rest f hstart).trans
                (StatementId.starts_key_nil o rest f [⟨r, w⟩] path')
          | cons j up =>
              rw [hpath] at hstart hsuffix
              obtain ⟨q, rfl⟩ := hsuffix
              exact (StatementId.starts_before_of_comma o rest f hstart).trans
                (StatementId.starts_key o rest f [⟨r, w⟩] q j up)

end Program

/-- There is a chain of control edges from the first node to the second. -/
def Pdg.Controls (g : Pdg) : NodeId → NodeId → Prop :=
  Relation.TransGen fun a b => g.edge? .control a b = .ok true

namespace Simulator

variable {s : Simulator} {start t r : Transition} {c n : String}

section Reported

variable {st : SmallStep} {top : Frame} {e : Expr}

theorem exprStep_expr {ps : ProcessState} (hst : (s.exprStep t ps top e).result = .ok st) :
    st.expr = none ∨ st.expr = some e := (exprStep_reports hst).imp_right And.left

/-- A step on a body is reported with nothing. -/
theorem bodyStep_expr : (s.bodyStep t top).expr = none := by
  unfold bodyStep
  simp only
  split
  · rfl
  · cases returnFrom_expr (s := s) (t := t) none top.comingFrom .unknown with
    | inl h => exact h
    | inr h => exact h

/-- The expression that a small step is about is the one at the location announced for it. -/
theorem at?_of_site (plain : s.setup.observer = .pdg false) (hst : (s.smallStep t).result = .ok st)
    (hr : r ∈ st.results) {x : Site} (hx : Move.site? s.program ⟨st, r⟩ = some x) :
    s.program.at? x.here = some x.expr := by
  obtain ⟨st₀, rs, hadv, hobs, rfl⟩ := smallStep_cases hst
  unfold advance at hadv
  split at hadv
  · rename_i ps top hps htop
    split at hadv
    · have hnone : st₀.expr = none := by
        rw [← Run.pure_result_iff.1 hadv]
        exact bodyStep_expr
      simp [Move.site?, hnone] at hx
    · rename_i i up hpath
      split at hadv
      · cases hadv
      · rename_i e he
        have hrunning : t.running? = some ps := hps
        obtain ⟨below, hstack⟩ : ∃ below, ps.stack = top :: below := by
          have : ps.top? = some top := by
            simpa [Transition.top?, hps] using htop
          exact List.head?_eq_some_iff.1 this
        have hframes := Transition.frames_eq_cons.2 ⟨ps, hrunning, hstack⟩
        obtain ⟨i', up', ps', a, st₁, hpath', -, -, ha, hexpr, hreported, -, -, v, hv, hrv⟩ :=
          smallStep_on plain hframes he hst hr
        have hann : r.scratch.announced = a := by
          rw [hrv]
          exact (exprStep_keeps (silent_of_plain plain) hexpr hv).announced
        have hreported : st₀.expr = st₁.expr := hreported
        have hloc : top.location.path = i' :: up' := hpath'
        cases exprStep_expr hexpr with
        | inl hnone => simp [Move.site?, hreported, hnone] at hx
        | inr hsome =>
            split at ha
            · simp only [Move.site?, hreported, hsome, hann, ha, List.map_cons, hloc,
                Option.some.injEq] at hx
              rw [← hx]
              exact he
            · simp [Move.site?, hreported, hsome, hann, ha] at hx
  · cases hadv

end Reported

theorem control_links {p : Program} {m : Move} {g : Pdg} {a b : NodeId}
    (h : .edge .control a b ∈ links p m g) : ∃ n, b = .statement n := by
  unfold links at h
  cases hsite : m.site? p with
  | none => simp [hsite] at h
  | some x =>
      cases hnode : x.node? p with
      | none => simp [hsite, hnode] at h
      | some n =>
          simp only [hsite, hnode] at h
          split at h
          · simp at h
          · obtain ⟨-, _, -, _, -, heq⟩ := h
            exact ⟨n, (Fact.edge.inj heq).2.2⟩

section Origin

variable (plain : s.setup.observer = .pdg false) {p : Process} {st : State}
variable (hbegin : s.begin? p st = .ok start)
include plain hbegin

/-- Only statements are controlled, and where a statement controls another one, a small step has
evaluated the latter under its control. -/
theorem Occurs.control_origin {f : Bool} (ht : s.Occurs start f t) {a b : NodeId}
    (hedge : .edge .control a b ∈ t.info.facts) : ∃ n, b = .statement n ∧ ∀ c, a = .statement c →
      ∃ u st r, (s.smallStep u).result = .ok st ∧ r ∈ st.results ∧
        EvaluatesUnder s.program ⟨st, r⟩ c n := by
  induction ht with
  | start =>
      obtain ⟨g, e, hg, hfacts⟩ := begin?_carries plain hbegin
      rw [hg.facts, hfacts] at hedge
      simp [fresh] at hedge
  | @step t r st ht hst hr ih =>
      by_cases hold : Fact.edge .control a b ∈ t.info.facts
      · exact ih hold
      · obtain ⟨g₀, -, hstart, -⟩ := begin?_carries plain hbegin
        obtain ⟨g, hg⟩ := ht.carries plain hstart
        obtain ⟨g', hg', hlearn⟩ := hg.step plain hst hr
        obtain ⟨k, -, hfacts, -, hgrow⟩ := hlearn.graph hg.entered
        obtain ⟨n, rfl⟩ : ∃ n, b = .statement n := by
          rw [hg'.facts, hgrow.facts, Set.mem_union, hfacts, control_mem_foldl, ← hg.facts] at hedge
          exact control_links (hedge.resolve_left hold)
        refine ⟨n, rfl, ?_⟩
        rintro c rfl
        have hnew := ((ht.control_iff plain hbegin hst hr).1 hedge).resolve_left hold
        exact ⟨t, st, r, hst, hr, hnew.2.1⟩
  | @merge f t u v i ht hu hkey hi hv iht ihu =>
      obtain ⟨g₀, -, hstart, -⟩ := begin?_carries plain hbegin
      change Fact.edge _ _ _ ∈ i.facts at hedge
      rw [facts_merge plain hstart ht hu hi] at hedge
      cases hedge with
      | inl hedge => exact iht hedge
      | inr hedge => exact ihu hedge

end Origin

/-- A control edge does not lead out of the expression inside which it starts. -/
theorem starts_of_evaluatesUnder (plain : s.setup.observer = .pdg false)
    (indexed : s.program.WellIndexed) {st : SmallStep} (hst : (s.smallStep t).result = .ok st)
    (hr : r ∈ st.results) (h : EvaluatesUnder s.program ⟨st, r⟩ c n) {a : String}
    (hstart : Starts (a.push ',') c) : Starts (a.push ',') n := by
  obtain ⟨cs, hcs, hc⟩ := h
  obtain ⟨x, hx, -, hnode, rfl⟩ := evaluation_node_eq_some.1 hcs
  obtain ⟨st?, hmem, hkey⟩ := List.mem_map.1 hc
  obtain ⟨stack, rfl, rfl⟩ := Option.map_eq_some_iff.1 hkey
  have he : s.program.at? ⟨x.here.routine, x.here.path⟩ = some x.expr :=
    at?_of_site plain hst hr hx
  rw [← he] at hmem
  have inside : ∀ w, w = x.here.path ∨ w = s.program.ownPath x.here.routine x.here.path →
      Starts (a.push ',')
        (StatementId.point x.after.origin (⟨x.here.routine, w⟩ :: x.callers)).key :=
    fun w hw => indexed.starts_of_controllers hmem hstart hw
  unfold Site.node? at hnode
  split at hnode
  · rw [← Option.some.inj hnode]
    exact inside _ (.inr rfl)
  · split at hnode
    · rw [← Option.some.inj hnode]
      exact inside _ (.inl rfl)
    · split at hnode
      · rw [← Option.some.inj hnode]
        exact inside _ (.inr rfl)
      · cases hnode

/-- Whatever is controlled by something inside an expression is inside it, too. -/
theorem starts_of_controls (plain : s.setup.observer = .pdg false) (indexed : s.program.WellIndexed)
    {p : Process} {st : State} (hbegin : s.begin? p st = .ok start) {ts : List Transition}
    (hstep : (s.makeStep p st).result = .ok ts) (hr : r ∈ ts) {g : Pdg} (hg : r.info = .pdg g)
    {a : String} (hstart : Starts (a.push ',') c) (h : g.Controls (.statement c) (.statement n)) :
    Starts (a.push ',') n := by
  obtain ⟨taken, ended, hx, e, he, -, g', g'', hg', hinfo, hfin⟩ :=
    makeStep_explored plain hbegin hstep hr
  obtain rfl : g = g'' := Info.pdg.inj (hg.symm.trans hinfo)
  obtain ⟨hvalid, hedges⟩ := finalize_valid_edges hg'.valid hfin
  have step : ∀ {b d : NodeId}, g.edge? .control b d = .ok true →
      (∃ n, b = .statement n ∧ Starts (a.push ',') n) →
      ∃ n, d = .statement n ∧ Starts (a.push ',') n := by
    rintro b d hedge ⟨c', rfl, hc'⟩
    rw [hvalid.edge?_eq_true, hedges] at hedge
    have hedge : Fact.edge .control (.statement c') d ∈ e.info.facts := by
      rw [hg'.facts]
      simpa using hedge
    obtain ⟨n', rfl, horigin⟩ := (hx.occurs e he).control_origin plain hbegin hedge
    obtain ⟨u, st', r', hst', hr', hunder⟩ := horigin c' rfl
    exact ⟨n', rfl, starts_of_evaluatesUnder plain indexed hst' hr' hunder hc'⟩
  have all : ∀ {d : NodeId}, g.Controls (.statement c) d →
      ∃ n, d = .statement n ∧ Starts (a.push ',') n := by
    intro d hd
    induction hd with
    | single hedge => exact step hedge ⟨c, rfl, hstart⟩
    | tail _ hedge ih => exact step hedge ih
  obtain ⟨n', heq, hn'⟩ := all h
  rwa [NodeId.statement.inj heq]

/-- The label of a case of the switch at `sw` controls nothing in another case, neither directly nor
through other nodes. -/
theorem label_not_controls (plain : s.setup.observer = .pdg false)
    (indexed : s.program.WellIndexed) {p : Process} {st : State}
    (hbegin : s.begin? p st = .ok start) {ts : List Transition}
    (hstep : (s.makeStep p st).result = .ok ts) (hr : r ∈ ts) :
    ∃ g, r.info = .pdg g ∧ ∀ (o : Option Instance) (f : Routine) (callers inner : Stack)
      (sw q : Path) (j k : Int), j ≠ k →
      ¬ g.Controls (.statement (StatementId.point o (⟨f, 0 :: j :: sw⟩ :: callers)).key)
        (.statement (StatementId.point o (inner ++ ⟨f, q ++ k :: sw⟩ :: callers)).key) := by
  obtain ⟨-, -, -, -, -, -, -, g, -, hg, -⟩ := makeStep_explored plain hbegin hstep hr
  refine ⟨g, hg, ?_⟩
  intro o f callers inner sw q j k hne h
  have label : Starts ((StatementId.before o callers f sw ++ toString j).push ',')
      (StatementId.point o (⟨f, 0 :: j :: sw⟩ :: callers)).key := by
    rw [← StatementId.before_cons]
    exact StatementId.starts_key o callers f [] [] 0 (j :: sw)
  have inside := starts_of_controls plain indexed hbegin hstep hr hg label h
  rw [← StatementId.before_cons] at inside
  exact hne (StatementId.eq_of_starts o callers f inside)

end Simulator

/-- `switch (t) { case 1: x = 1; case 2: y = 2; }` where `t` is unknown. -/
def Examples.falling : System :=
  let t := field 0 "t"
  let x := field 1 "x"
  let y := field 2 "y"
  single [t, x, y] [] [⟨"run", [.switch 0 "" (ref t) [.arm 0 (some (number 1)) [assign x (number 1)],
    .arm 0 (some (number 2)) [assign y (number 2)]]], [], false⟩]

namespace Examples

/-- The part of the first statement of `run` at the given indices. -/
def partOf (path : Path) : Stack := [⟨.member ⟨0, "Top", "run", [], false⟩, path ++ [0]⟩]

def partNode (path : Path) : String := (StatementId.point (some top) (partOf path)).key

end Examples

open Examples Simulator in
theorem label_not_controls_falling :
    ∃ start ts r g, (untracked falling (.pdg false)).begin? runner atStart = .ok start ∧
      (untracked falling (.pdg false)).program.WellIndexed ∧
      ((untracked falling (.pdg false)).makeStep runner atStart).result = .ok ts ∧ r ∈ ts ∧
      r.info = .pdg g ∧ ¬ g.Controls (.statement (partNode [0, 1])) (.statement (partNode [1, 2])) := by
  obtain ⟨start, ts, r, g, -, hbegin, hts, hr, hg, -, -⟩ := exists_of_arrives
    (s := untracked falling (.pdg false)) (p := runner) (t := atStart) (l := List.replicate 30 0)
    (c := fun _ _ _ => true) (by decide +kernel)
  have indexed : (untracked falling (.pdg false)).program.WellIndexed :=
    Program.wellIndexed_numbered _
  obtain ⟨g', hg', hnot⟩ := label_not_controls rfl indexed hbegin hts hr
  obtain rfl : g = g' := Info.pdg.inj (hg.symm.trans hg')
  exact ⟨start, ts, r, g, hbegin, indexed, hts, hr, hg,
    hnot (some top) _ [] [] [0] [1] 1 2 (by decide)⟩

open Examples Simulator in
/-- A sequence runs the first case, whose label may equal the tag, and then the second case without
its label; but the label of the first case does not control the statement of the second one. -/
theorem label_not_controls_fallen :
    ∃ start ts r g ms, (untracked falling (.pdg false)).begin? runner atStart = .ok start ∧
      ((untracked falling (.pdg false)).makeStep runner atStart).result = .ok ts ∧ r ∈ ts ∧
      r.info = .pdg g ∧ (untracked falling (.pdg false)).Leads start ms r ∧
      Made (.ofSystem falling) ms (partNode [0, 1]) ∧
      Evaluated (.ofSystem falling) ms (partNode [1, 1]) ∧
      ¬ Made (.ofSystem falling) ms (partNode [0, 2]) ∧
      Evaluated (.ofSystem falling) ms (partNode [1, 2]) ∧
      ¬ g.Controls (.statement (partNode [0, 1])) (.statement (partNode [1, 2])) := by
  obtain ⟨start, ts, r, g, ms, hbegin, hts, hr, hg, hleads, h⟩ := exists_of_arrives
    (s := untracked falling (.pdg false)) (p := runner) (t := atStart) (l := List.replicate 30 0)
    (c := fun _ ms _ => Made (.ofSystem falling) ms (partNode [0, 1]) &&
      Evaluated (.ofSystem falling) ms (partNode [1, 1]) &&
      !Made (.ofSystem falling) ms (partNode [0, 2]) &&
      Evaluated (.ofSystem falling) ms (partNode [1, 2])) (by decide +kernel)
  simp only [Bool.and_eq_true, decide_eq_true_eq, Bool.not_eq_true', decide_eq_false_iff_not] at h
  obtain ⟨⟨⟨hlabel, hfirst⟩, hskipped⟩, hsecond⟩ := h
  refine ⟨start, ts, r, g, ms, hbegin, hts, hr, hg, hleads, hlabel, hfirst, hskipped, hsecond, ?_⟩
  intro hcontrols
  have inside := starts_of_controls (a := "top Top.run[0,1") rfl (Program.wellIndexed_numbered _)
    hbegin hts hr hg (by decide +kernel) hcontrols
  exact absurd inside (by decide +kernel)

end DeltaSlice
