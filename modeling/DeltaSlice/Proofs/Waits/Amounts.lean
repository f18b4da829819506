import DeltaSlice.Proofs.Step.Obedience
import DeltaSlice.Proofs.Structured.Code
import DeltaSlice.Proofs.Waits.Stops
import DeltaSlice.Proofs.Waits.Wakeups

/-!
Amounts of time. An amount is a number of femtoseconds in 64-bit words, and that number is exact just when the
words have room for it. As long as all amounts that are evaluated have room, every time that comes up while a
system runs is positive.
-/

namespace DeltaSlice

/-- The femtoseconds of so many units have room in a 64-bit word. -/
def TimeUnit.HasRoom (u : TimeUnit) (n : Int64) : Prop :=
  ∀ f, u.femtoseconds? = some f → n.toInt * f.toInt < 2 ^ 63

namespace TimeUnit

variable {u u' : TimeUnit} {f f' : Int64}

theorem femtoseconds?_pos (h : u.femtoseconds? = some f) : 0 < f.toInt := by
  unfold femtoseconds? at h
  split at h <;> cases h <;> decide

/-- A unit is a thousand of the next smaller one. -/
theorem femtoseconds?_next (h : u.femtoseconds? = some f) (h' : u'.femtoseconds? = some f')
    (next : u.code.toInt = u'.code.toInt + 1) : f = 1000 * f' := by
  unfold femtoseconds? at h h'
  rw [next] at h
  split at h' <;> cases h' <;> rename_i code <;> rw [code] at h <;> cases h <;> decide

end TimeUnit

namespace Delay

variable {n m f fs : Int64} {u : TimeUnit}

/-- Which amounts are times: positive numbers of units that have a length. -/
theorem ofAmount_eq_time : ofAmount n u = .ok (.time fs) ↔
    0 < n.toInt ∧ ∃ f, u.femtoseconds? = some f ∧ fs = n * f := by
  have unsized : TimeUnit.zero.femtoseconds? = none := rfl
  unfold ofAmount
  split
  · rename_i none
    rw [Bool.or_eq_true, decide_eq_true_eq, decide_eq_true_eq] at none
    refine ⟨fun h => (nomatch Except.ok.inj h), ?_⟩
    rintro ⟨positive, f, hf, -⟩
    rcases none with rfl | rfl
    · rw [unsized] at hf
      cases hf
    · cases positive
  · rename_i some
    rw [Bool.or_eq_true, decide_eq_true_eq, decide_eq_true_eq, not_or] at some
    split
    · rename_i negative
      have negative := Int64.lt_iff_toInt_lt.1 negative
      rw [Int64.toInt_zero] at negative
      exact ⟨fun h => (nomatch h), fun ⟨positive, _⟩ => by omega⟩
    · rename_i more
      have positive : 0 < n.toInt := by
        have apart : n.toInt ≠ 0 := fun h => some.2 (Int64.toInt_inj.1 h)
        rw [Int64.lt_iff_toInt_lt, Int64.toInt_zero] at more
        omega
      split
      · rename_i f hf
        exact ⟨fun h => ⟨positive, f, hf, (Delay.time.inj (Except.ok.inj h)).symm⟩,
          fun ⟨_, f', hf', same⟩ => by rw [same, Option.some.inj (hf.symm.trans hf')]⟩
      · rename_i none
        refine ⟨fun h => (nomatch h), ?_⟩
        rintro ⟨-, f, hf, -⟩
        rw [none] at hf
        cases hf

/-- The number of femtoseconds is the product just when there is room for it. -/
theorem toInt_mul_iff (hn : 0 < n.toInt) (hf : 0 < f.toInt) :
    (n * f).toInt = n.toInt * f.toInt ↔ n.toInt * f.toInt < 2 ^ 63 := by
  refine ⟨fun h => h ▸ (n * f).toInt_lt, fun room => ?_⟩
  have positive := Int.mul_pos hn hf
  rw [Int64.toInt_mul]
  exact Int.bmod_eq_of_le (by omega) (by omega)

/-- An amount that has room gives a positive time. -/
theorem isPositive_of_ofAmount {d : Delay} (h : ofAmount n u = .ok d) (room : u.HasRoom n) : d.IsPositive := by
  cases d with
  | delta => trivial
  | time fs =>
      obtain ⟨hn, f, hf, rfl⟩ := ofAmount_eq_time.1 h
      have positive := TimeUnit.femtoseconds?_pos hf
      have exact := (toInt_mul_iff hn positive).2 (room f hf)
      have product := Int.mul_pos hn positive
      rw [← exact] at product
      exact product

end Delay

instance (u : TimeUnit) (n : Int64) : Decidable (u.HasRoom n) :=
  decidable_of_iff ((u.femtoseconds?.all fun f => decide (n.toInt * f.toInt < 2 ^ 63)) = true)
    (by simp [TimeUnit.HasRoom, Option.all_eq_true])

namespace Expr

/-- Two operands, written as constants, are no amount of time or one that has room. -/
def pairFits : Expr → Expr → Bool
  | const _ (.int n), const _ (.unit u) => u.HasRoom n
  | const _ (.int _), const .. => true
  | const _ (.int _), _ => false
  | const .., _ => true
  | _, _ => false

/-- The amount of time that an expression takes, if any, is written as constants and has room. -/
def amountFits : Expr → Bool
  | notify _ _ (x :: y :: _) => pairFits x y
  | call _ .wait [x, y] | call _ .wait [x, y, _] => pairFits x y
  | _ => true

variable {x y : Expr} {a b : Value} {n : Int64} {u : TimeUnit}

/-- Operands that fit give no amount that has no room. -/
theorem hasRoom_of_pairFits (fits : pairFits x y = true)
    (ha : ∀ id l, x = .const id l → a = .unknown ∨ a = .lit l)
    (hb : ∀ id l, y = .const id l → b = .unknown ∨ b = .lit l) (amount : a.amount? b = some (n, u)) :
    u.HasRoom n := by
  obtain ⟨n', hn, amount⟩ := Option.bind_eq_some_iff.1 amount
  obtain ⟨u', hu, same⟩ := Option.map_eq_some_iff.1 amount
  cases same
  unfold pairFits at fits
  split at fits
  · rcases ha _ _ rfl with rfl | rfl
    · cases hn
    · rcases hb _ _ rfl with rfl | rfl
      · cases hu
      · obtain rfl := Option.some.inj hn
        obtain rfl := Option.some.inj hu
        exact of_decide_eq_true fits
  · rename_i l other
    rcases hb _ _ rfl with rfl | rfl
    · cases hu
    · cases l with
      | unit u => exact absurd rfl (other u)
      | _ => cases hu
  · cases fits
  · rename_i l other _ _
    rcases ha _ _ rfl with rfl | rfl
    · cases hn
    · cases l with
      | int n => exact absurd rfl (other n)
      | _ => cases hn
  · cases fits

end Expr

/-- The delay that a value carries: the value itself, or the timeout of an event list. -/
def Value.delay? : Value → Option Delay
  | .known (.literal (.delay d)) => some d
  | .known (.events _ l) => l.timeout
  | _ => none

/-- A delay stands in a state: something waits for it, or a value carries it. -/
inductive State.Holds (st : State) (d : Delay) : Prop
  | wait {ps : ProcessState} : ps ∈ st.procs ∨ st.update = some ps → Blocker.timeout? ps.blocker = some d → st.Holds d
  | pending {e : Event} : st.pendingOf e = some d → st.Holds d
  | result {ps : ProcessState} {f : Frame} {k : Nat} {c : Int} {x : Value} : ps ∈ st.procs ∨ st.update = some ps →
      f ∈ ps.stack → f.slot? k c = some x → x.delay? = some d → st.Holds d
  | receiver {ps : ProcessState} {f : Frame} : ps ∈ st.procs ∨ st.update = some ps → f ∈ ps.stack →
      f.receiver.delay? = some d → st.Holds d
  | ofLocal {ps : ProcessState} {v : Variable} {x : Value} : ps ∈ st.procs ∨ st.update = some ps →
      ps.locals.get? v = some x → x.delay? = some d → st.Holds d
  | ofGlobal {v : Variable} {x : Value} : st.global.values.get? v = some x → x.delay? = some d → st.Holds d

/-- Constants of the program that are delays are positive. -/
def System.Timed (sys : System) : Prop :=
  ∀ l id d, sys.at? l = some (.const id (.delay d)) → d.IsPositive

/-- The expression is no delay that is not positive. -/
def Expr.isTimed : Expr → Bool
  | const _ (.delay d) => decide d.IsPositive
  | _ => true

theorem System.timed_of_code {sys : System} (all : sys.bodies.all (Expr.allEverywhere Expr.isTimed) = true) :
    sys.Timed :=
  fun _ _ _ hd => of_decide_eq_true (test_bodies all hd)

namespace Simulator

variable {s : Simulator} {first st : State} {t r : Transition}

/-- All delays are positive. -/
def timed (constants : s.program.system.Timed) : Discipline s where
  plain x := ∀ d, x.delay? = some d → d.IsPositive
  place _ x := ∀ d, x.delay? = some d → d.IsPositive
  held _ _ := True
  delay := Delay.IsPositive
  simple := by
    rintro x (rfl | ⟨l, rfl, other⟩) d hd
    · cases hd
    · cases l with
      | delay d' => exact absurd rfl (other d')
      | _ => cases hd
  constant {l id x} hx d hd := by
    cases x with
    | delay d' =>
        obtain rfl := Option.some.inj hd
        exact constants l id d' hx
    | _ => cases hd
  events n hx hy hl := by
    unfold eventList? at hl
    split at hl
    · obtain rfl := Option.some.inj hl
      exact fun d hd => nomatch hd
    · obtain rfl := Option.some.inj hl
      exact hx
    · cases hl
  plain_place h := h
  global _ _ _ _ hd := nomatch hd
  own _ _ _ _ _ hd := nomatch hd
  push _ _ _ _ := trivial
  pop _ _ := trivial
  last _ := trivial
  target _ _ _ := trivial
  param _ _ _ _ := trivial
  delta := trivial
  literal_delay h := h _ rfl
  timeout h hd := h _ hd

/-- Whatever amount of time is evaluated has room. -/
def HasRoom (s : Simulator) (first : State) : Prop :=
  ∀ start t n u, s.Begins first start → s.Occurs start false t → s.amount? t = some (n, u) → u.HasRoom n

/-- When the simulation advances, what is left of delays stays positive. -/
theorem advanceTime_ahead (placed : s.Placed) (tidy : t.state.Tidy s) (ahead : s.Ahead none t.state)
    (hr : (s.advanceTime t).result = .ok r) : s.Ahead none r.state := by
  cases stopped : t.state.global.stopped with
  | true =>
      rw [advanceTime, if_pos stopped] at hr
      obtain rfl := Run.pure_result_iff.1 hr
      exact ahead
  | false =>
      obtain ⟨-, undergoes⟩ := advanceTime_undergoes placed.apart tidy.single stopped hr
      obtain ⟨permits, accords⟩ := ending_permits ahead
      constructor
      · intro p hp other w d hw hd
        rw [undergoes.waits p hp other] at hw
        obtain ⟨w₀, hw₀, rfl⟩ := Option.map_eq_some_iff.1 hw
        exact (permits p hp w₀ hw₀).waitAfter (fun d hd => ahead.waits p hp other w₀ d hw₀ hd) d hd
      · intro e d hd
        rw [undergoes.pending e] at hd
        have after : (s.ending t.state).pendingAfter e (t.state.pendingOf e) =
            (t.state.pendingOf e).bind (s.ending t.state).delayAfter := by
          unfold ending
          dsimp only
          split
          · split <;> rfl
          · rfl
        have hd : (s.ending t.state).pendingAfter e (t.state.pendingOf e) = some d := hd
        rw [after] at hd
        obtain ⟨d₀, hd₀, left⟩ := Option.bind_eq_some_iff.1 hd
        exact (hd₀ ▸ (accords e).1 : (s.ending t.state).Permits (some d₀)).delayAfter (ahead.pending e d₀ hd₀) left

theorem timed_passes (placed : s.Placed) (constants : s.program.system.Timed) : (timed constants).Passes := by
  intro t r tidy h hr
  have ahead : s.Ahead none t.state := by
    refine ⟨fun p _ _ w d hw hd => ?_, h.pending⟩
    obtain ⟨ps, hps, rfl⟩ := Option.map_eq_some_iff.1 hw
    exact (h.procs ps (List.mem_of_getElem? hps)).wait d hd
  have later := advanceTime_ahead placed tidy ahead hr
  refine ⟨fun ps hps d hd => ?_, later.pending⟩
  obtain ⟨i, found⟩ := List.getElem?_of_mem hps
  have hw : r.state.waitOf? i = some ps.blocker := by rw [State.waitOf?, found]; rfl
  obtain ⟨p, hp, rfl⟩ := process_of_wait placed (advanceTime_tidy placed tidy hr).peopled hw
  exact later.waits p hp (by simp) _ d hw hd

/-- All delays of a state that obeys are positive. -/
theorem positive_of_obeys {constants : s.program.system.Timed} (h : st.Obeys (timed constants)) {d : Delay}
    (hd : st.Holds d) : d.IsPositive := by
  have code : ∀ {ps : ProcessState}, ps ∈ st.procs ∨ st.update = some ps → ps.Obeys (timed constants) :=
    fun hps => hps.elim (h.procs _) (h.update _)
  have frame : ∀ {ps : ProcessState} {f : Frame}, ps.Obeys (timed constants) → f ∈ ps.stack →
      ∃ stack, f.Obeys (timed constants) stack := by
    exact fun obeys hf => obeys.frames.frame hf
  cases hd with
  | wait hps hd => exact (code hps).wait d hd
  | pending hd => exact h.pending _ d hd
  | result hps hf hx hd =>
      obtain ⟨stack, obeys⟩ := frame (code hps) hf
      exact (obeys.results _ _ _ hx).place d hd
  | receiver hps hf hd =>
      obtain ⟨stack, obeys⟩ := frame (code hps) hf
      exact obeys.receiver d hd
  | ofLocal hps hx hd => exact ((code hps).locals _ _ hx).1 d hd
  | ofGlobal hx hd => exact h.values _ _ hx d hd

/-- Nothing is asked of anything. -/
def permissive (s : Simulator) : Discipline s where
  plain _ := True
  place _ _ := True
  held _ _ := True
  delay _ := True
  simple _ := trivial
  constant _ := trivial
  events _ _ _ _ := trivial
  plain_place _ := trivial
  global _ _ _ := trivial
  own _ _ _ _ := trivial
  push _ _ _ _ := trivial
  pop _ _ := trivial
  last _ := trivial
  target _ _ _ := trivial
  param _ _ _ _ := trivial
  delta := trivial
  literal_delay _ := trivial
  timeout _ _ := trivial

/-- If amounts are written as constants that have room, then all that are evaluated have room. -/
theorem hasRoom_of_constants (placed : s.Placed) (start : s.initial = .ok first)
    (all : s.program.system.bodies.all (Expr.allEverywhere Expr.amountFits) = true) : s.HasRoom first := by
  intro begun t n u begins occurs amount
  have invariant := (permissive s).invariant start (fun _ _ _ => trivial)
    (Discipline.measures_of_all _ fun _ => trivial) (Discipline.passes_of_all _ fun _ => trivial)
  have obeys := invariant.occurs placed start begins occurs
  obtain ⟨top, htop, amount⟩ := Option.bind_eq_some_iff.1 amount
  obtain ⟨e, he, amount⟩ := Option.bind_eq_some_iff.1 amount
  have he : s.program.system.at? top.location = some e := he
  obtain ⟨ps, hps, htop⟩ := Option.bind_eq_some_iff.1 htop
  obtain ⟨stack, obey⟩ := (Transition.running_obeys obeys hps).frames.frame (List.mem_of_mem_head? htop)
  have constant : ∀ (c : Int) x, elementAt? e.children c = some x → ∀ id l, x = .const id l →
      top.value 0 c = .unknown ∨ top.value 0 c = .lit l :=
    fun c x hc id l hx => obey.constant (k := 0) (((System.at?_cons he).trans hc).trans (congrArg some hx))
  have test := System.test_bodies all he
  cases e with
  | notify id target delays =>
      cases delays with
      | nil => cases amount
      | cons x rest =>
          cases rest with
          | nil => cases amount
          | cons y rest =>
              exact Expr.hasRoom_of_pairFits test (constant 1 x rfl) (constant 2 y rfl) amount
  | call id f args =>
      cases f with
      | wait =>
          rw [Frame.amountAt?] at amount
          split at amount
          · rename_i few
            rcases few with two | three
            · obtain ⟨x, y, rfl⟩ := List.length_eq_two.1 two
              exact Expr.hasRoom_of_pairFits test (constant 0 x rfl) (constant 1 y rfl) amount
            · obtain ⟨x, y, z, rfl⟩ := List.length_eq_three.1 three
              exact Expr.hasRoom_of_pairFits test (constant 0 x rfl) (constant 1 y rfl) amount
          · cases amount
      | _ => cases amount
  | _ => cases amount

/-- Times are exact and positive where there is room for them. An amount is a time if it is a positive number of
units that have a length; it is the product just when that has room, and then it is positive and grows with the
number of units. In all units it is the same. In no state that can be reached stands a time that is not positive,
if that is so of the constants and initial values and if whatever amount is evaluated has room. -/
theorem times_exact {sys : System} {setup : Setup} (made : make sys setup = .ok s) (start : s.initial = .ok first)
    (constants : sys.Timed)
    (values : ∀ v x d, first.global.values.get? v = some x → x.delay? = some d → d.IsPositive)
    (room : s.HasRoom first) :
    (∀ n u fs, Delay.ofAmount n u = .ok (.time fs) ↔
      0 < n.toInt ∧ ∃ f, u.femtoseconds? = some f ∧ fs = n * f) ∧
    (∀ n u f fs, Delay.ofAmount n u = .ok (.time fs) → u.femtoseconds? = some f →
      (fs.toInt = n.toInt * f.toInt ↔ n.toInt * f.toInt < 2 ^ 63)) ∧
    (∀ n u fs, Delay.ofAmount n u = .ok (.time fs) → u.HasRoom n → 0 < fs.toInt) ∧
    (∀ n m u a b, Delay.ofAmount n u = .ok (.time a) → Delay.ofAmount m u = .ok (.time b) → u.HasRoom m →
      n.toInt < m.toInt → a.toInt < b.toInt) ∧
    (∀ n u u' a b, u.code.toInt = u'.code.toInt + 1 → Delay.ofAmount n u = .ok (.time a) →
      Delay.ofAmount (1000 * n) u' = .ok (.time b) → a = b) ∧
    ∀ st, s.Reachable first st → ∀ fs, st.Holds (.time fs) → 0 < fs.toInt := by
  have program : s.program.system = sys := by
    obtain ⟨-, rfl⟩ := make_cases made
    rfl
  have placed := placed_of_make made
  refine ⟨fun n u fs => Delay.ofAmount_eq_time, fun n u f fs h hf => ?_, fun n u fs h room => ?_,
    fun n m u a b ha hb room less => ?_, fun n u u' a b next ha hb => ?_, fun st reached fs hfs => ?_⟩
  · obtain ⟨hn, f', hf', rfl⟩ := Delay.ofAmount_eq_time.1 h
    obtain rfl := Option.some.inj (hf.symm.trans hf')
    exact Delay.toInt_mul_iff hn (TimeUnit.femtoseconds?_pos hf)
  · exact Delay.isPositive_of_ofAmount h room
  · obtain ⟨hn, f, hf, rfl⟩ := Delay.ofAmount_eq_time.1 ha
    obtain ⟨hm, f', hf', rfl⟩ := Delay.ofAmount_eq_time.1 hb
    obtain rfl := Option.some.inj (hf.symm.trans hf')
    have positive := TimeUnit.femtoseconds?_pos hf
    have product := Int.mul_lt_mul_of_pos_right less positive
    have bound := room f hf
    rw [(Delay.toInt_mul_iff hm positive).2 bound, (Delay.toInt_mul_iff hn positive).2 (by omega)]
    exact product
  · obtain ⟨-, f, hf, rfl⟩ := Delay.ofAmount_eq_time.1 ha
    obtain ⟨-, f', hf', rfl⟩ := Delay.ofAmount_eq_time.1 hb
    rw [TimeUnit.femtoseconds?_next hf hf' next, ← Int64.mul_assoc, Int64.mul_comm n 1000]
  · have constants : s.program.system.Timed := program ▸ constants
    have invariant := (timed constants).invariant start (fun v x hx d hd => values v x d hx hd)
      (fun start t n u d begins occurs amount hd =>
        Delay.isPositive_of_ofAmount hd (room start t n u begins occurs amount))
      (timed_passes placed constants)
    exact positive_of_obeys (invariant.reachable placed start reached) hfs

end Simulator

namespace Examples

/-- One thread sleeps longer than the words have room for. -/
def overlong : System := single [] [] [⟨"sleeper", [wait [number 9224, const (.unit .sec)]], [], false⟩]

end Examples

open Examples Simulator in
theorem times_exact_alarm : ∃ s first st, make alarm watching = .ok s ∧ s.initial = .ok first ∧ alarm.Timed ∧
    (∀ v, first.global.values.get? v = none) ∧ s.HasRoom first ∧ s.Reachable first st ∧
    st.Holds (.time 5000000) ∧ 0 < (5000000 : Int64).toInt ∧
    Delay.ofAmount 5 .ns = .ok (.time 5000000) ∧ (5000000 : Int64).toInt = 5 * 1000000 := by
  obtain ⟨s, made, h⟩ := Success.exists_of_yields (x := make alarm watching) (c := fun s =>
    Success.yields s.initial fun first => first.global.values.entries = [] &&
      (s.choose first 0).any fun st => st.procs.any fun ps => ps.blocker = some (.delay (.time 5000000)))
    (by decide +kernel)
  obtain ⟨first, start, h⟩ := Success.exists_of_yields h
  obtain ⟨values, h⟩ := (Bool.and_eq_true _ _).mp h
  obtain ⟨st, chosen, h⟩ := (Option.any_eq_true _ _).1 h
  obtain ⟨ps, hps, sleeps⟩ := List.any_eq_true.1 h
  have values : ∀ v, first.global.values.get? v = none := fun v => by
    rw [Table.get?, of_decide_eq_true values]
    rfl
  have timed : alarm.Timed := System.timed_of_code (by decide)
  have room : s.HasRoom first := hasRoom_of_constants (placed_of_make made) start (by
    obtain ⟨-, rfl⟩ := make_cases made
    decide)
  have reached : s.Reachable first st := Reachable.start.choose chosen
  have holds : st.Holds (.time 5000000) := .wait (.inl hps) (by rw [of_decide_eq_true sleeps]; rfl)
  obtain ⟨-, exact, -, -, -, positive⟩ := times_exact made start timed (fun v x d hx => by simp [values] at hx) room
  exact ⟨s, first, st, made, start, timed, values, room, reached, holds, positive st reached _ holds, rfl,
    (exact 5 .ns 1000000 5000000 rfl rfl).2 (by decide)⟩

open Examples Simulator in
/-- The sleeper waits for less than no time. -/
theorem times_not_positive : ∃ s first st fs, make overlong watching = .ok s ∧ s.initial = .ok first ∧
    s.Reachable first st ∧ Delay.ofAmount 9224 .sec = .ok (.time fs) ∧ st.Holds (.time fs) ∧
    fs.toInt ≠ 9224 * 10 ^ 15 ∧ fs.toInt < 0 := by
  obtain ⟨s, made, h⟩ := Success.exists_of_yields (x := make overlong watching) (c := fun s =>
    Success.yields s.initial fun first => (s.choose first 0).any fun st =>
      st.procs.any fun ps => ps.blocker = some (.delay (.time (-9222744073709551616)))) (by decide +kernel)
  obtain ⟨first, start, h⟩ := Success.exists_of_yields h
  obtain ⟨st, chosen, h⟩ := (Option.any_eq_true _ _).1 h
  obtain ⟨ps, hps, sleeps⟩ := List.any_eq_true.1 h
  exact ⟨s, first, st, -9222744073709551616, made, start, Reachable.start.choose chosen, rfl,
    .wait (.inl hps) (by rw [of_decide_eq_true sleeps]; rfl), by decide, by decide⟩

end DeltaSlice
