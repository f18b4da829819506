import DeltaSlice.Proofs.Step.Footing

/-!
Where cases stand, and what their results are. Cases stand in switches, and they evaluate to a truth
value, so a switch never holds an unknown result of a case. This decides about falling through.
-/

namespace DeltaSlice

namespace Expr

def isArm : Expr → Bool
  | arm .. => true
  | _ => false

def isSwitch : Expr → Bool
  | switch .. => true
  | _ => false

mutual

/-- `e` is a case just if one is expected, and so are all nodes below it: a switch expects cases
behind its tag. -/
def fits (expected : Bool) (e : Expr) : Bool :=
  e.isArm == expected && match e with
  | unary _ _ x | bracket _ x => x.fits false
  | binary _ _ x y | access _ x y => x.fits false && y.fits false
  | block _ l => allFit false l
  | branch _ c yes no => c.fits false && (allFit false yes && allFit false no)
  | whileLoop _ _ c body | doLoop _ _ c body => c.fits false && allFit false body
  | forLoop _ _ init cond post body =>
    init.fits false && (cond.fits false && (allFit false body && post.fits false))
  | switch _ _ tag cases => tag.fits false && allFit true cases
  | arm _ none body => allFit false body
  | arm _ (some v) body => v.fits false && allFit false body
  | ret _ (some v) => v.fits false
  | call _ _ args => allFit false args
  | notify _ target delays => target.fits false && allFit false delays
  | const .. | var .. | event .. | exit .. | next .. | ret _ none | stop _ | empty _ => true

def allFit (expected : Bool) : List Expr → Bool
  | [] => true
  | e :: es => e.fits expected && allFit expected es

end

theorem allFit_iff {expected : Bool} {l : List Expr} :
    allFit expected l = true ↔ ∀ e ∈ l, e.fits expected = true := by
  induction l with
  | nil => simp [allFit]
  | cons e l ih => simp [allFit, ih]

theorem isArm_of_fits {expected : Bool} {e : Expr} (h : e.fits expected = true) :
    e.isArm = expected := by
  unfold fits at h
  exact eq_of_beq (Bool.and_eq_true_iff.1 h).1

/-- Behind the tag of a switch a case is expected, and nowhere else. -/
theorem fits_child {expected : Bool} {e c : Expr} {i : Int} (h : e.fits expected = true)
    (hc : elementAt? e.children i = some c) : c.fits (e.isSwitch && decide (0 < i)) = true := by
  have plain : ∀ {l : List Expr}, allFit false l = true → c ∈ l → c.fits false = true :=
    fun hl hmem => allFit_iff.1 hl c hmem
  unfold fits at h
  have below := (Bool.and_eq_true_iff.1 h).2
  cases e with
  | switch id label tag cases =>
      obtain ⟨htag, hcases⟩ := Bool.and_eq_true_iff.1 below
      have hi : ¬ i < 0 := fun hi => by simp [elementAt?, hi] at hc
      obtain ⟨n, rfl⟩ := Int.eq_ofNat_of_zero_le (not_lt.1 hi)
      rw [elementAt?_natCast] at hc
      cases n with
      | zero =>
          obtain rfl : tag = c := by simpa [children] using hc
          exact htag
      | succ n =>
          have hmem : c ∈ cases := List.mem_of_getElem? (by simpa [children] using hc)
          simpa [isSwitch] using allFit_iff.1 hcases c hmem
  | arm id value body =>
      have hmem := mem_of_elementAt? hc
      cases value with
      | none => exact plain below hmem
      | some v =>
          rw [children, List.mem_cons] at hmem
          obtain ⟨hv, hbody⟩ := Bool.and_eq_true_iff.1 below
          exact hmem.elim (fun heq => heq ▸ hv) (plain hbody)
  | ret id value =>
      have hmem := mem_of_elementAt? hc
      cases value with
      | none => cases hmem
      | some v =>
          obtain rfl := List.mem_singleton.1 hmem
          exact below
  | const | var | event | exit | next | stop | empty => cases mem_of_elementAt? hc
  | _ =>
      have hmem := mem_of_elementAt? hc
      simp only [children, List.mem_cons, List.mem_append, List.not_mem_nil, or_false] at hmem
      simp only [Bool.and_eq_true, allFit_iff] at below
      simp only [isSwitch, Bool.false_and]
      grind

end Expr

namespace System

/-- Cases stand in switches, behind the tag, and nothing else does. -/
def casesFit (sys : System) : Bool := sys.bodies.all (Expr.allFit false)

/-- Whether the expression at a location is a switch. -/
def isSwitch (sys : System) (l : Location) : Bool := (sys.at? l).any Expr.isSwitch

/-- Whether a location lies behind the tag of a switch. -/
def isCase (sys : System) (l : Location) : Bool :=
  match l.path with
  | [] => false
  | i :: up => sys.isSwitch ⟨l.routine, up⟩ && decide (0 < i)

variable {sys : System} {l : Location} {e : Expr}

theorem fits_of_at? (fit : sys.casesFit = true) (he : sys.at? l = some e) :
    e.fits (sys.isCase l) = true := by
  obtain ⟨r, path⟩ := l
  induction path generalizing e with
  | nil => cases he
  | cons i up ih =>
      cases hq : sys.at? ⟨r, up⟩ with
      | some q =>
          rw [at?_cons hq] at he
          have := Expr.fits_child (ih hq) he
          simpa [isCase, isSwitch, hq] using this
      | none =>
          have outside : sys.isCase ⟨r, i :: up⟩ = false := by simp [isCase, isSwitch, hq]
          rw [outside]
          obtain ⟨m, body, rfl, hbody, he⟩ := at?_eq_some he
          have hfit := List.all_eq_true.1 fit body (List.mem_of_getElem? hbody)
          rcases Path.resolve?_cases he with ⟨rfl, hmem⟩ | ⟨q, hq', -⟩
          · exact Expr.allFit_iff.1 hfit e hmem
          · have : sys.at? ⟨.member m, up⟩ = some q := by
              simpa [at?, System.body, hbody] using hq'
            rw [this] at hq
            cases hq

theorem isArm_eq (fit : sys.casesFit = true) (he : sys.at? l = some e) :
    e.isArm = sys.isCase l :=
  Expr.isArm_of_fits (sys.fits_of_at? fit he)

end System

namespace Program

variable {p : Program} {r : Routine} {i : Int} {up path : Path} {e : Expr}

/-- Cases stand in switches, and the index tells which expression stands where. -/
structure Cased (p : Program) : Prop where
  indexed : p.WellIndexed
  fit : p.system.casesFit = true

namespace Cased

variable (cased : p.Cased)

include cased

/-- A case stands in a switch, behind the case that is looked for. -/
theorem checkCase_succeeds (he : p.at? ⟨r, i :: up⟩ = some e) : p.checkCase r e i = .ok () := by
  unfold checkCase
  split
  · split
    · rfl
    · rename_i later
      have behind : p.system.isCase ⟨r, i :: up⟩ = true := (System.isArm_eq cased.fit he).symm
      obtain ⟨inSwitch, -⟩ := Bool.and_eq_true_iff.1 behind
      obtain ⟨q, hq, switches⟩ := (Option.any_eq_true ..).1 inSwitch
      rw [cased.indexed.parent?_eq he, show p.at? ⟨r, up⟩ = some q from hq]
      cases q with
      | switch id label tag cases =>
          obtain ⟨low, high⟩ := elementAt?_lt ((System.at?_cons hq).symm.trans he)
          have inside : (i - 2).toNat < cases.length := by
            simp only [Expr.children, List.length_cons] at high
            omega
          have before : elementAt? cases (i - 2) = some cases[(i - 2).toNat] := by
            rw [elementAt?, if_neg (by omega), List.getElem?_eq_getElem inside]
          dsimp only
          rw [before]
          rfl
      | _ => cases switches
  · rfl

/-- Where cases stand in switches, they are found on the way up from any expression. -/
theorem checkCases_succeeds (he : p.at? ⟨r, path⟩ = some e) : p.checkCases r path (some e) = .ok () := by
  induction path generalizing e with
  | nil => rfl
  | cons i up ih =>
      have above : p.checkCases r up (p.parent? r e) = .ok () := by
        rw [cased.indexed.parent?_eq he]
        cases hq : p.at? ⟨r, up⟩ with
        | none => cases up <;> rfl
        | some q => exact ih hq
      unfold checkCases
      rw [cased.checkCase_succeeds he, above]
      cases (p.parent? r e).bind (·.controllingIndex? i) with
      | none => rfl
      | some c => exact ite_self _

end Cased

end Program

/-- No switch on the way to the current expression holds an unknown result of a case. -/
def Frame.Settled (sys : System) (f : Frame) : Prop :=
  ∀ k : Nat, sys.isSwitch ⟨f.location.routine, f.path.drop k⟩ = true → ∀ c : Int, 0 < c →
    ∀ v, f.slot? k c = some v → v.isKnown = true

namespace Frame.Settled

variable {sys : System} {f : Frame}

theorem start (r : Routine) (x : Value) : (Frame.start r x).Settled sys := by
  intro k hk
  simp [Frame.start, Frame.path, System.isSwitch, System.at?, Path.resolve?] at hk

theorem comeFrom (h : f.Settled sys) (i : Int) : Frame.Settled sys { f with comingFrom := i } := h

theorem enter (h : f.Settled sys) (i : Int) : (f.enter i).Settled sys := by
  intro k hk c hc v hv
  cases k with
  | zero =>
      have none : (f.enter i).slot? 0 c = none := slot?_enter_zero
      rw [Int.ofNat_zero, none] at hv
      cases hv
  | succ k => exact h k hk c hc v (slot?_enter_succ k ▸ hv)

theorem pop (h : f.Settled sys) (n : Nat) : (f.pop n).Settled sys := by
  intro k hk c hc v hv
  have hslot : (f.pop n).slot? k c = f.slot? (n + k : Nat) c := by
    simp only [slot?, Frame.pop, elementAt?_natCast, List.getElem?_drop]
  refine h (n + k) ?_ c hc v (hslot ▸ hv)
  simpa only [Frame.pop, path, List.drop_drop] using hk

/-- A result may be put where it is known or where it is not the result of a case. -/
theorem put (h : f.Settled sys) (i : Int) {x : Option Value}
    (hx : sys.isSwitch f.location = true → 0 < i → ∀ v, x = some v → v.isKnown = true) :
    (f.put i x).Settled sys := by
  intro k hk c hc v hv
  have hpath : (f.put i x).path = f.path := congrArg Location.path (put_location f i x)
  rw [put_location, hpath] at hk
  cases k with
  | zero =>
      obtain ⟨-, rfl, here⟩ | before := slot?_put_cases hv
      · exact hx hk hc v here
      · exact h 0 hk c hc v before
  | succ k => exact h (k + 1) hk c hc v (slot?_put_succ i x k ▸ hv)

theorem finish (h : f.Settled sys) {x : Value}
    (hx : sys.isCase f.location = true → x.isKnown = true) : (sys.finish x f).Settled sys := by
  unfold System.finish leave
  cases hpath : f.path with
  | nil => exact h
  | cons i up =>
      have popped := (h.pop 1).comeFrom i
      simp only
      split
      · refine popped.put i ?_
        intro hswitch hi v hv
        obtain rfl := Option.some.inj hv
        refine hx ?_
        have hloc : f.location.path = i :: up := hpath
        simp only [System.isCase, hloc, hi, decide_true, Bool.and_true]
        simpa only [Frame.pop, hpath, List.drop_one, List.tail_cons] using hswitch
      · exact popped

end Frame.Settled

/-- No switch of the running code holds an unknown result of a case, and none is to get the result of
a call: the frames that wait for one are not at a switch. -/
structure Transition.CasesKnown (sys : System) (t : Transition) : Prop where
  frames : ∀ f ∈ t.frames, f.Settled sys
  callers : ∀ f ∈ t.frames.tail, sys.isSwitch f.location = false

namespace Transition.CasesKnown

variable {sys : System} {t : Transition} {top : Frame} {below : List Frame}

theorem of_frames {t' : Transition} (h : t.CasesKnown sys) (same : t'.frames = t.frames) :
    t'.CasesKnown sys :=
  ⟨same ▸ h.frames, same ▸ h.callers⟩

theorem mapTop (h : t.CasesKnown sys) {f : Frame → Frame}
    (hf : ∀ top below, t.frames = top :: below → top.Settled sys → (f top).Settled sys) :
    (t.mapTop f).CasesKnown sys := by
  cases hframes : t.frames with
  | nil =>
      refine h.of_frames ?_
      rw [hframes]
      simp only [Transition.frames, Transition.mapTop, running?_mapRunning] at hframes ⊢
      cases hps : t.running? with
      | none => rfl
      | some ps =>
          have : ps.stack = [] := by simpa [hps] using hframes
          simp [ProcessState.mapTop, this]
  | cons top below =>
      have hnew := frames_mapTop hframes f
      refine ⟨?_, ?_⟩
      · intro x hx
        rw [hnew] at hx
        rcases List.mem_cons.1 hx with rfl | hx
        · exact hf top below hframes (h.frames _ (by simp [hframes]))
        · exact h.frames x (by simp [hframes, hx])
      · rw [hnew]
        have := h.callers
        rw [hframes] at this
        exact this

end Transition.CasesKnown

/-- The results of cases are known where a switch is told them, and all frames can be edited. -/
structure Transition.Settled (sys : System) (t : Transition) : Prop extends t.CasesKnown sys where
  firm : ∀ f ∈ t.frames, f.Firm

end DeltaSlice
