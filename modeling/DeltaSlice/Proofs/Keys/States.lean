import DeltaSlice.Interleaving
import DeltaSlice.Model.Examples
import DeltaSlice.Proofs.Keys.Processes
import DeltaSlice.Proofs.Worklist.Exploration

/-!
Keys identify states. In a legible vocabulary, two states with the same key have the same content, so
branches and records that are merged by key are merged rightly. Without that they may differ, since
strings are written as they are.
-/

namespace DeltaSlice

/-- The content of a state: values, pending notifications and update requests, whether the simulation
was stopped, and the content of every process and of the update routines. -/
structure StateContent where
  values : Variable → Option Value
  pending : Event → Option Delay
  updates : List Instance
  stopped : Bool
  procs : List ProcessContent
  update : Option ProcessContent

def State.content (s : State) : StateContent :=
  ⟨Store.content s.global.values, s.global.pending.get?, s.global.updates, s.global.stopped,
    s.procs.map ProcessState.content, s.update.map ProcessState.content⟩

/-- All that a state speaks of belongs to the vocabulary. -/
structure State.Within (w : Vocabulary) (s : State) : Prop where
  values : Store.Within w s.global.values
  keys : (s.global.pending.entries.map (·.1)).Nodup
  pending : ∀ e ∈ s.global.pending.entries, e.1 ∈ w.events
  updates : ∀ i ∈ s.global.updates, i ∈ w.instances
  procs : ∀ ps ∈ s.procs, ps.Within w
  update : ∀ ps, s.update = some ps → ps.Within w

namespace Reading

variable {w : Vocabulary} {s t : List Char}

/-- What stands after the lines of the processes: the line of the update routines, or nothing. -/
structure Unnumbered (s : List Char) : Prop where
  ending : Ending s
  letter : ∀ c r, s = '\n' :: c :: r → c = 'u'

theorem chars_procKeys (n : Nat) (p : ProcessState) (l : List ProcessState) (u : List Char) :
    (State.procKeys n (p :: l)).toList ++ u = '\n' :: ((toString (n : Int)).toList ++
      (": ".toList ++ (p.key.toList ++ ((State.procKeys (n + 1) l).toList ++ u)))) := by
  simp only [State.procKeys, String.toList_append, List.append_assoc]
  rfl

theorem procKeys_ending (n : Nat) (l : List ProcessState) (hs : Ending s) :
    Ending ((State.procKeys n l).toList ++ s) := by
  cases l with
  | nil => exact hs
  | cons p l =>
      rw [chars_procKeys]
      intro c hc
      exact (Option.some.inj hc).symm

theorem procKeys_apart {n : Nat} {p : ProcessState} {l : List ProcessState} (ht : Unnumbered t) :
    (State.procKeys n (p :: l)).toList ++ s ≠ t := by
  intro heq
  rw [chars_procKeys] at heq
  obtain ⟨c, r, hc, -⟩ := toString_begins n
  have letter := ht.letter c _ (by rw [← heq, hc]; rfl)
  have : 'u' ∈ (toString (n : Int)).toList := by rw [hc, letter]; exact List.mem_cons_self
  exact notMem_toString (by decide) _ this

theorem procKeys_eq (hw : w.Legible) {n : Nat} {l l' : List ProcessState}
    (hl : ∀ p ∈ l, p.Within w) (hl' : ∀ p ∈ l', p.Within w) (hs : Unnumbered s) (ht : Unnumbered t)
    (h : (State.procKeys n l).toList ++ s = (State.procKeys n l').toList ++ t) :
    l.map ProcessState.content = l'.map ProcessState.content ∧ s = t := by
  induction l generalizing n l' with
  | nil =>
      cases l' with
      | nil => exact ⟨rfl, by simpa [State.procKeys] using h⟩
      | cons q l' => exact absurd h.symm (procKeys_apart (by simpa [State.procKeys] using hs))
  | cons p l ih =>
      cases l' with
      | nil => exact absurd h (procKeys_apart (by simpa [State.procKeys] using ht))
      | cons q l' =>
          rw [chars_procKeys, chars_procKeys] at h
          have h := List.append_cancel_left (List.append_cancel_left (List.cons.inj h).2)
          obtain ⟨first, h⟩ := process_eq hw (hl p (by simp)) (hl' q (by simp))
            (procKeys_ending _ l hs.ending) (procKeys_ending _ l' ht.ending) h
          obtain ⟨others, rest⟩ := ih (fun p hp => hl p (by simp [hp])) (fun p hp => hl' p (by simp [hp])) h
          exact ⟨by simp [first, others], rest⟩

/-- One notification as it stands in the key of a state. -/
def pendingChars (e : Event × Option Delay) : List Char :=
  (e.1.text ++ "@" ++ (e.2.map Delay.text).getD "" ++ " ").toList

/-- The pending notifications in the order of the key. -/
def notifications (g : GlobalState) : List (Event × Option Delay) :=
  g.pendingEvents.map fun e => (e, g.pending.get? e)

theorem chars_global (g : GlobalState) (u : List Char) : g.key.toList ++ u =
    (if g.stopped then "stopped " else "").toList ++ ((notifications g).flatMap pendingChars ++
      ("updates".toList ++ '[' :: ([','].intercalate (g.updates.map (String.toList ∘ Instance.name)) ++
        ']' :: ((Store.key g.values).toList ++ u)))) := by
  have pending : g.pendingKey.toList = (notifications g).flatMap pendingChars := by
    unfold GlobalState.pendingKey notifications pendingChars
    rw [String.toList_join, List.flatMap_map, List.flatMap_map]
  simp only [GlobalState.key, String.toList_append, pending, String.toList_intercalate, List.map_map,
    List.append_assoc]
  rfl

theorem mem_notifications {g : GlobalState} {e : Event} {d : Delay} :
    (e, some d) ∈ notifications g ↔ g.pending.get? e = some d := by
  unfold notifications GlobalState.pendingEvents
  simp only [List.mem_map, (sortByText_perm _ _).mem_iff, Prod.mk.injEq]
  constructor
  · rintro ⟨e', -, rfl, hd⟩
    exact hd
  · intro hd
    exact ⟨e, List.mem_map_of_mem (Table.mem_of_get? hd), rfl, hd⟩

/-- An event is read up to a character that no name holds, so words that end there are no events. -/
theorem event_apart (hw : w.Legible) {e : Event} (he : e ∈ w.events) {x : List Char} {c : Char}
    (hx : ∀ y ∈ x, y ∉ [' ', '@', '[', '}', ')']) (hc : c ∈ [' ', '[']) {u v : List Char} :
    e.text.toList ++ '@' :: u ≠ x ++ c :: v := by
  intro heq
  have avoided : [' ', '['] ⊆ [' ', '@', '[', '}', ')'] := by simp
  obtain ⟨-, rest⟩ := span_eq (hw.events.avoids e he) hx (by simp)
    (by rintro y hy; obtain rfl := Option.some.inj hy; exact not_not.2 (avoided hc)) heq
  rw [← (List.cons.inj rest).1] at hc
  exact absurd hc (by decide)

/-- What stands after the pending notifications. -/
def Unpending (s : List Char) : Prop := ∃ r, s = "updates".toList ++ '[' :: r

theorem pendingChars_some (e : Event) (d : Delay) (u : List Char) :
    pendingChars (e, some d) ++ u = e.text.toList ++ '@' :: (d.text.toList ++ ' ' :: u) := by
  simp only [pendingChars, String.toList_append, List.append_assoc, Option.map_some, Option.getD_some]
  rfl

theorem pendingChars_begins (e : Event × Option Delay) (u : List Char) :
    ∃ r, pendingChars e ++ u = e.1.text.toList ++ '@' :: r := by
  rw [pendingChars, String.append_assoc, String.append_assoc, String.toList_append, List.append_assoc,
    String.toList_append]
  exact ⟨_, rfl⟩

theorem pending_eq (hw : w.Legible) {l l' : List (Event × Option Delay)}
    (hl : ∀ e ∈ l, e.1 ∈ w.events ∧ e.2.isSome) (hl' : ∀ e ∈ l', e.1 ∈ w.events ∧ e.2.isSome)
    (hs : Unpending s) (ht : Unpending t) (h : l.flatMap pendingChars ++ s = l'.flatMap pendingChars ++ t) :
    l = l' ∧ s = t := by
  have item : ∀ (e e' : Event × Option Delay) (u v : List Char), (e.1 ∈ w.events ∧ e.2.isSome) →
      (e'.1 ∈ w.events ∧ e'.2.isSome) → True → True →
      pendingChars e ++ u = pendingChars e' ++ v → id e = id e' ∧ u = v := by
    rintro ⟨e, d⟩ ⟨e', d'⟩ u v ⟨he, hd⟩ ⟨he', hd'⟩ - - heq
    obtain ⟨d, rfl⟩ := Option.isSome_iff_exists.1 hd
    obtain ⟨d', rfl⟩ := Option.isSome_iff_exists.1 hd'
    rw [pendingChars_some, pendingChars_some] at heq
    obtain ⟨same, heq⟩ := hw.events.read he he' (by simp) (by simp) heq
    obtain ⟨delay, heq⟩ := delay_eq (by simp [Ended]) (by simp [Ended]) (List.cons.inj heq).2
    exact ⟨congrArg₂ Prod.mk same (congrArg some delay), (List.cons.inj heq).2⟩
  have apart : ∀ (e : Event × Option Delay) (u v : List Char), (e.1 ∈ w.events ∧ e.2.isSome) →
      Unpending v → pendingChars e ++ u ≠ v := by
    rintro e u v ⟨he, -⟩ ⟨r, rfl⟩ heq
    obtain ⟨r', hr'⟩ := pendingChars_begins e u
    rw [hr'] at heq
    exact event_apart hw he (by simp) (by simp) heq
  obtain ⟨same, rest⟩ := flatMap_eq item apart (fun _ _ _ => trivial) (fun _ _ => trivial) hl hl' hs ht h
  exact ⟨by simpa using same, rest⟩

/-- A stopped simulation says so first, and nothing else starts like that. -/
theorem stopped_eq (hw : w.Legible) {b b' : Bool} {l l' : List (Event × Option Delay)}
    (hl : ∀ e ∈ l, e.1 ∈ w.events) (hl' : ∀ e ∈ l', e.1 ∈ w.events) (hs : Unpending s)
    (ht : Unpending t) (h : (if b then "stopped " else "").toList ++ (l.flatMap pendingChars ++ s) =
      (if b' then "stopped " else "").toList ++ (l'.flatMap pendingChars ++ t)) :
    b = b' ∧ l.flatMap pendingChars ++ s = l'.flatMap pendingChars ++ t := by
  have apart : ∀ {l : List (Event × Option Delay)} {u v : List Char}, (∀ e ∈ l, e.1 ∈ w.events) →
      Unpending u → l.flatMap pendingChars ++ u ≠ "stopped ".toList ++ v := by
    rintro l u v hl ⟨r, rfl⟩ heq
    cases l with
    | nil => simp at heq
    | cons e l =>
        rw [List.flatMap_cons, List.append_assoc] at heq
        obtain ⟨r', hr'⟩ := pendingChars_begins e (l.flatMap pendingChars ++ ("updates".toList ++ '[' :: r))
        rw [hr'] at heq
        exact event_apart hw (hl e (by simp)) (x := "stopped".toList) (by simp) (c := ' ') (by simp) heq
  cases b with
  | false =>
      cases b' with
      | false => exact ⟨rfl, by simpa using h⟩
      | true => exact absurd (by simpa using h) (apart hl hs)
  | true =>
      cases b' with
      | false => exact absurd (by simpa using h.symm) (apart hl' ht)
      | true => exact ⟨rfl, List.append_cancel_left h⟩

theorem global_eq (hw : w.Legible) {g g' : State} (hg : g.Within w) (hg' : g'.Within w)
    (hs : Ending s) (ht : Ending t) (h : g.global.key.toList ++ s = g'.global.key.toList ++ t) :
    Store.content g.global.values = Store.content g'.global.values ∧
      g.global.pending.get? = g'.global.pending.get? ∧ g.global.updates = g'.global.updates ∧
      g.global.stopped = g'.global.stopped ∧ s = t := by
  have listed : ∀ {g : State}, g.Within w →
      ∀ e ∈ notifications g.global, e.1 ∈ w.events ∧ e.2.isSome := by
    intro g hg e he
    obtain ⟨e', he', rfl⟩ := List.mem_map.1 he
    have hkey := (sortByText_perm _ _).mem_iff.1 he'
    obtain ⟨⟨e'', d⟩, hmem, rfl⟩ := List.mem_map.1 hkey
    exact ⟨hg.pending _ hmem, by rw [Table.get?_of_mem hg.keys hmem]; rfl⟩
  have item : ∀ (i j : Instance) (u v : List Char), i ∈ w.instances → j ∈ w.instances →
      (∀ x ∈ u.head?, x ∈ [',', ']']) → (∀ x ∈ v.head?, x ∈ [',', ']']) →
      (String.toList ∘ Instance.name) i ++ u = (String.toList ∘ Instance.name) j ++ v →
      id i = id j ∧ u = v := by
    intro i j u v hi hj hu hv heq
    have avoided : [',', ']'] ⊆ [',', ']', ')'] := by simp
    exact hw.instances.read hi hj (fun x hx => avoided (hu x hx)) (fun x hx => avoided (hv x hx)) heq
  rw [chars_global, chars_global] at h
  obtain ⟨stopped, h⟩ := stopped_eq hw (fun e he => (listed hg e he).1) (fun e he => (listed hg' e he).1)
    ⟨_, rfl⟩ ⟨_, rfl⟩ h
  obtain ⟨pending, h⟩ := pending_eq hw (listed hg) (listed hg') ⟨_, rfl⟩ ⟨_, rfl⟩ h
  have begins : ∀ i ∈ w.instances, ∃ c r, (String.toList ∘ Instance.name) i = c :: r ∧ c ≠ ']' :=
    fun i hi => hw.instances.begins hi (by simp)
  obtain ⟨updates, h⟩ := intercalate_eq (by decide) item begins (by simp) (by simp) hg.updates
    hg'.updates (List.cons.inj (List.append_cancel_left h)).2
  obtain ⟨values, rest⟩ := store_eq hw hg.values hg'.values hs ht h
  refine ⟨values, ?_, by simpa using updates, stopped, rest⟩
  funext e
  refine Option.ext fun d => ?_
  rw [← mem_notifications, ← mem_notifications, pending]

/-- The line of the update routines. -/
def updateChars (u : Option ProcessState) : List Char :=
  (match u with | some ps => "\nupdate: " ++ ps.key | none => "").toList

theorem updateChars_unnumbered (u : Option ProcessState) : Unnumbered (updateChars u) := by
  cases u with
  | none => exact ⟨by simp [updateChars, Ending], by simp [updateChars]⟩
  | some p =>
      have chars : updateChars (some p) = '\n' :: 'u' :: ("pdate: ".toList ++ p.key.toList) := by
        rw [updateChars, String.toList_append]
        rfl
      rw [chars]
      exact ⟨by simp [Ending], fun c r h => by simpa using (List.cons.inj (List.cons.inj h).2).1.symm⟩

theorem update_eq (hw : w.Legible) {u v : Option ProcessState} (hu : ∀ p, u = some p → p.Within w)
    (hv : ∀ p, v = some p → p.Within w) (h : updateChars u = updateChars v) :
    u.map ProcessState.content = v.map ProcessState.content := by
  cases u with
  | none =>
      cases v with
      | none => rfl
      | some q => simp [updateChars] at h
  | some p =>
      cases v with
      | none => simp [updateChars] at h
      | some q =>
          simp only [updateChars, String.toList_append] at h
          have h : p.key.toList ++ [] = q.key.toList ++ [] := by simpa using List.append_cancel_left h
          obtain ⟨same, -⟩ := process_eq hw (hu p rfl) (hv q rfl) (by simp [Ending]) (by simp [Ending]) h
          exact congrArg some same

end Reading

open Reading in
/-- States that speak of the things of a legible vocabulary are told apart by their keys. -/
theorem State.content_eq_of_key_eq {w : Vocabulary} (hw : w.Legible) {a b : State} (ha : a.Within w)
    (hb : b.Within w) (h : a.key = b.key) : a.content = b.content := by
  have chars : ∀ s : State, s.key.toList =
      s.global.key.toList ++ ((State.procKeys 0 s.procs).toList ++ updateChars s.update) := by
    intro s
    cases update : s.update <;> simp [State.key, updateChars, update]
  have h := congrArg String.toList h
  rw [chars, chars] at h
  have ua := updateChars_unnumbered a.update
  have ub := updateChars_unnumbered b.update
  obtain ⟨values, pending, updates, stopped, h⟩ := global_eq hw ha hb (procKeys_ending 0 _ ua.ending)
    (procKeys_ending 0 _ ub.ending) h
  obtain ⟨procs, h⟩ := procKeys_eq hw ha.procs hb.procs ua ub h
  have update := update_eq hw ha.update hb.update h
  simp only [State.content, values, pending, updates, stopped, procs, update]

/-- A queue that takes up a transition keeps the states it has. If it does not add the new one, it has
one with the same content. -/
theorem Queue.add_content {w : Vocabulary} (hw : w.Legible) {q q' : Queue} {t : Transition}
    (hq : ∀ e ∈ q.entries, e.1 = e.2.state.key ∧ e.2.state.Within w) (ht : t.state.Within w)
    (h : q.add t = .ok q') :
    q'.transitions.map (·.state) = q.transitions.map (·.state) ++ [t.state] ∨
      (q'.transitions.map (·.state) = q.transitions.map (·.state) ∧
        ∃ u ∈ q.transitions, u.state.content = t.state.content) := by
  obtain ⟨-, he⟩ | ⟨pre, e, post, i, hsplit, hkey, -, he⟩ := Queue.add_cases h
  · exact .inl (by simp [transitions, he])
  · have hmem : e ∈ q.entries := by simp [hsplit]
    refine .inr ⟨by simp [transitions, he, hsplit], e.2, List.mem_map_of_mem hmem, ?_⟩
    obtain ⟨hown, hwithin⟩ := hq e hmem
    exact State.content_eq_of_key_eq hw hwithin ht (hown.symm.trans hkey)

/-- A record numbers a state by one with the same content. -/
theorem Interleaving.addState_content {w : Vocabulary} (hw : w.Legible) {r : Interleaving}
    (hr : ∀ x ∈ r.states, x.1 = x.2.key ∧ x.2.Within w) {st : State} (hst : st.Within w) :
    ∃ x, (r.addState st).2.2.state? (r.addState st).1 = some x ∧ x.content = st.content := by
  simp only [addState]
  split
  · rename_i n hn
    obtain ⟨lt, hkey, -⟩ := List.findIdx?_eq_some_iff_getElem.1 hn
    obtain ⟨hown, hwithin⟩ := hr r.states[n] (List.getElem_mem lt)
    refine ⟨r.states[n].2, by simp [state?, lt], ?_⟩
    exact State.content_eq_of_key_eq hw hwithin hst (hown.symm.trans (by simpa using hkey))
  · exact ⟨st, by simp [state?], rfl⟩

/-- States with one key have one content, and what is merged by key, in the queue of a run and in a
record, is merged with a state of the same content. -/
theorem merged_of_same_content {w : Vocabulary} (hw : w.Legible) :
    (∀ a b : State, a.Within w → b.Within w → a.key = b.key → a.content = b.content) ∧
      (∀ (q q' : Queue) (t : Transition),
        (∀ e ∈ q.entries, e.1 = e.2.state.key ∧ e.2.state.Within w) → t.state.Within w →
        q.add t = .ok q' →
        q'.transitions.map (·.state) = q.transitions.map (·.state) ++ [t.state] ∨
          (q'.transitions.map (·.state) = q.transitions.map (·.state) ∧
            ∃ u ∈ q.transitions, u.state.content = t.state.content)) ∧
      ∀ (r : Interleaving) (st : State), (∀ x ∈ r.states, x.1 = x.2.key ∧ x.2.Within w) →
        st.Within w →
        ∃ x, (r.addState st).2.2.state? (r.addState st).1 = some x ∧ x.content = st.content :=
  ⟨fun _ _ => State.content_eq_of_key_eq hw, fun _ _ _ => Queue.add_content hw,
    fun _ _ hr => Interleaving.addState_content hw hr⟩

namespace Examples

def ownField (index : Nat) (name : String) : Variable := .global (.inst top) (field index name)

/-- The names of a system with two fields and an event. -/
def twoFields : Vocabulary where
  instances := {top}
  events := {⟨some top, "done"⟩}
  routines := {.member ⟨0, "Top", "run", [], false⟩}
  vars := {ownField 0 "x", ownField 1 "y"}

theorem twoFields_legible : twoFields.Legible where
  instances := ⟨by simp [twoFields], by simp [twoFields, top], by simp [twoFields, top]⟩
  events := ⟨by simp [twoFields], by simp [twoFields, top, Event.text], by
    simp [twoFields, top, Event.text]⟩
  routines := ⟨by simp [twoFields], by simp [twoFields, Routine.text], by
    simp [twoFields, Routine.text]⟩
  vars := ⟨by
    rintro a (rfl | rfl) b (rfl | rfl) <;> simp [ownField, field, Variable.text],
    by simp [twoFields, ownField, field, top, Variable.text],
    by simp [twoFields, ownField, field, top, Variable.text]⟩

/-- A state with the given values of fields, in which a process runs. -/
def holding (values : List (Variable × Value)) : State :=
  ⟨{ GlobalState.start with values := ⟨values⟩ },
    [.start none [.start (.member ⟨0, "Top", "run", [], false⟩) (.lit (.inst top))]], none, 0⟩

theorem holding_within {values : List (Variable × Value)} (keys : (values.map (·.1)).Nodup)
    (fields : ∀ e ∈ values, e.1 = ownField 0 "x" ∨ e.1 = ownField 1 "y")
    (legible : ∀ e ∈ values, e.2.Within twoFields) : (holding values).Within twoFields where
  values := ⟨keys, fields, legible⟩
  keys := .nil
  pending := by simp [holding, GlobalState.start, Table.empty]
  updates := by simp [holding, GlobalState.start]
  procs := by
    intro ps hps
    obtain rfl : ps = _ := List.mem_singleton.1 hps
    refine ⟨by simp [ProcessState.start], ?_, ⟨.nil, by simp [ProcessState.start, Table.empty], by
      simp [ProcessState.start, Table.empty]⟩⟩
    intro f hf
    obtain rfl : f = _ := List.mem_singleton.1 hf
    exact ⟨rfl, rfl, by simp [Frame.start]⟩
  update := by simp [holding]

/-- A list of one event under a number. -/
def waitingFor (serial : Nat) (choice : Bool) : Value :=
  .known (.events serial ⟨[⟨some top, "done"⟩], choice, none⟩)

end Examples

open Examples in
/-- Entries in another order, a list under another number, and a choice that makes no difference. -/
theorem merged_of_same_content_twoFields : ∃ a b : State, twoFields.Legible ∧ a.Within twoFields ∧
    b.Within twoFields ∧ a.global.values.entries ≠ b.global.values.entries ∧ a.key = b.key ∧
    a.content = b.content := by
  have hw := twoFields_legible
  have listed : ∀ n c, (waitingFor n c).Within twoFields := by
    intro n c e he
    exact List.mem_singleton.1 he
  have number : (Value.int 1).Within twoFields := trivial
  have ha : (holding [(ownField 0 "x", .int 1), (ownField 1 "y", waitingFor 3 true)]).Within twoFields :=
    holding_within (by decide) (by simp) (by simp [listed, number])
  have hb : (holding [(ownField 1 "y", waitingFor 7 false), (ownField 0 "x", .int 1)]).Within twoFields :=
    holding_within (by decide) (by simp) (by simp [listed, number])
  have hkey : (holding [(ownField 0 "x", .int 1), (ownField 1 "y", waitingFor 3 true)]).key =
      (holding [(ownField 1 "y", waitingFor 7 false), (ownField 0 "x", .int 1)]).key := by
    decide +kernel
  exact ⟨_, _, hw, ha, hb, by decide, hkey, (merged_of_same_content hw).1 _ _ ha hb hkey⟩

open Examples in
/-- A string that reads like the end of its value and another entry. -/
theorem same_key_string : ∃ a b : State, twoFields.Legible ∧
    (∀ e ∈ a.global.values.entries, e.1 ∈ twoFields.vars) ∧
    (∀ e ∈ b.global.values.entries, e.1 ∈ twoFields.vars) ∧ a.key = b.key ∧
    a.content ≠ b.content := by
  refine ⟨holding [(ownField 0 "x", .lit (.text "p),top.y=string(q"))],
    holding [(ownField 0 "x", .lit (.text "p")), (ownField 1 "y", .lit (.text "q"))],
    twoFields_legible, by simp [holding, twoFields], by simp [holding, twoFields], by decide +kernel, ?_⟩
  intro h
  have value := congrFun (congrArg StateContent.values h) (ownField 1 "y")
  exact absurd value (by decide)

end DeltaSlice
