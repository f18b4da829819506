import DeltaSlice.Proofs.Keys.Reading
import DeltaSlice.State.Basic

/-!
What the keys of values and locations tell. Names are read up to the separators that they avoid, and
the payload of a value up to the bracket that closes it. Of an event list only the events, the timeout
and, from two events on, the choice are told.
-/

namespace DeltaSlice

/-- The named things that states speak of. -/
structure Vocabulary where
  instances : Set Instance
  events : Set Event
  routines : Set Routine
  vars : Set Variable

/-- Things of one kind have different texts, and no text holds a character by which keys separate it
from what follows. -/
structure Vocabulary.Legible (w : Vocabulary) : Prop where
  instances : Spelled Instance.name [',', ']', ')'] w.instances
  events : Spelled Event.text [' ', '@', '[', '}', ')'] w.events
  routines : Spelled Routine.text ['['] w.routines
  vars : Spelled Variable.text ['='] w.vars

/-- Whether one event is enough makes no difference where there are no two. -/
def EventList.content (l : EventList) : EventList :=
  if l.events.length ≤ 1 then { l with choice := false } else l

/-- An event list is its content, whatever its number is. -/
def Value.content : Value → Value
  | known (.events _ l) => known (.events 0 l.content)
  | x => x

section Within

variable (w : Vocabulary)

def EventList.Within (l : EventList) : Prop := ∀ e ∈ l.events, e ∈ w.events

/-- A payload with a key that ends where it closes: strings and targets hold no closing bracket. -/
def Payload.Within : Payload → Prop
  | .literal (.text s) => ')' ∉ s.toList
  | .literal (.unit u) => u.hasText = true
  | .literal (.event e) => e ∈ w.events
  | .literal (.inst i) => i ∈ w.instances
  | .literal _ => True
  | .target v => v ∈ w.vars ∧ ')' ∉ v.text.toList
  | .events _ l => l.Within w

def Value.Within : Value → Prop
  | .unknown => True
  | .known p => p.Within w

end Within

namespace Reading

variable {w : Vocabulary} {s t : List Char}

/-- What stands after a delay. -/
def Ended (s : List Char) : Prop := ∀ c ∈ s.head?, c = ' ' ∨ c = '\n' ∨ c = ')'

/-- The characters that a written delay may hold. -/
theorem mem_delay {d : Delay} {c : Char} (h : c ∈ d.text.toList) :
    c ∈ ['d', 'e', 'l', 't', 'a', 'f', 's', '-'] ∨ c.isDigit = true := by
  cases d with
  | delta =>
      have : c ∈ ['d', 'e', 'l', 't', 'a'] := by simpa [Delay.text] using h
      simp only [List.mem_cons, List.not_mem_nil, or_false] at this ⊢
      tauto
  | time fs =>
      rw [Delay.text, String.toList_append, List.mem_append] at h
      rcases h with h | h
      · rcases isDigit_of_mem_toString h with rfl | hdigit
        · simp
        · exact .inr hdigit
      · have : c ∈ ['f', 's'] := by simpa using h
        simp only [List.mem_cons, List.not_mem_nil, or_false] at this ⊢
        tauto

theorem notMem_delay {d : Delay} {c : Char}
    (hc : c ∉ ['d', 'e', 'l', 't', 'a', 'f', 's', '-'] ∧ c.isDigit = false) : c ∉ d.text.toList := by
  intro h
  rcases mem_delay h with h | h
  · exact hc.1 h
  · rw [hc.2] at h
    cases h

theorem delay_chars (d : Delay) : ∀ c ∈ d.text.toList, ¬ (c = ' ' ∨ c = '\n' ∨ c = ')') := by
  rintro c hc (rfl | rfl | rfl) <;> exact notMem_delay (by decide) hc

theorem delay_text_inj {d e : Delay} (h : d.text = e.text) : d = e := by
  have digits : ∀ fs : Int64, (Delay.time fs).text ≠ Delay.delta.text := by
    intro fs hfs
    have hmem : 'd' ∈ (toString fs.toInt ++ "fs").toList := by
      rw [show toString fs.toInt ++ "fs" = Delay.delta.text from hfs]
      decide
    rw [String.toList_append, List.mem_append] at hmem
    rcases hmem with hmem | hmem
    · exact notMem_toString (by decide) _ hmem
    · exact absurd hmem (by decide)
  cases d with
  | delta =>
      cases e with
      | delta => rfl
      | time fs => exact absurd h.symm (digits fs)
  | time fs =>
      cases e with
      | delta => exact absurd h (digits fs)
      | time fs' =>
          have same := congrArg String.toList h
          rw [Delay.text, Delay.text, String.toList_append, String.toList_append] at same
          have := Int.repr_injective (String.toList_inj.1 (List.append_cancel_right same))
          rw [Int64.toInt_inj.1 this]

theorem delay_eq {d e : Delay} (hs : Ended s) (ht : Ended t)
    (h : d.text.toList ++ s = e.text.toList ++ t) : d = e ∧ s = t := by
  obtain ⟨same, rest⟩ := span_eq (delay_chars d) (delay_chars e) (fun c hc => not_not.2 (hs c hc))
    (fun c hc => not_not.2 (ht c hc)) h
  exact ⟨delay_text_inj (String.toList_inj.1 same), rest⟩

/-- A text without a closing bracket is read up to the one that follows it. -/
theorem closed_eq {x y : String} (hx : ')' ∉ x.toList) (hy : ')' ∉ y.toList)
    (h : x.toList ++ ')' :: s = y.toList ++ ')' :: t) : x = y ∧ s = t := by
  obtain ⟨same, rest⟩ := span_eq (p := (· ≠ ')')) (fun c hc heq => hx (heq ▸ hc))
    (fun c hc heq => hy (heq ▸ hc)) (by simp) (by simp) h
  exact ⟨String.toList_inj.1 same, (List.cons.inj rest).2⟩

theorem unit_cases {u : TimeUnit} (hu : u.hasText = true) :
    (∃ i : Nat, u.code.toInt = i ∧ TimeUnit.names[i]? = some u.text) ∨
      u.text = "TimeUnit(" ++ toString u.code.toInt ++ ")" := by
  have nonneg : 0 ≤ u.code.toInt := by
    have : (0 : Int64) ≤ u.code := by simpa [TimeUnit.hasText] using hu
    simpa [Int64.le_iff_toInt_le] using this
  simp only [TimeUnit.text, hu, if_true]
  cases hname : TimeUnit.names[u.code.toInt.toNat]? with
  | none => exact .inr rfl
  | some name => exact .inl ⟨u.code.toInt.toNat, (Int.toNat_of_nonneg nonneg).symm, hname⟩

theorem unit_names : TimeUnit.names.Nodup ∧
    ∀ x ∈ TimeUnit.names, ')' ∉ x.toList ∧ x.toList.head? = some 'S' := by
  simp [TimeUnit.names]

theorem unit_eq {u v : TimeUnit} (hu : u.hasText = true) (hv : v.hasText = true)
    (h : u.text.toList ++ ')' :: s = v.text.toList ++ ')' :: t) : u = v ∧ s = t := by
  have same_code : u.code.toInt = v.code.toInt → u = v := fun hcode =>
    congrArg TimeUnit.mk (Int64.toInt_inj.1 hcode)
  -- A named unit starts with another letter than the text of a number.
  have apart : ∀ {x : String} {n : Int} {s t : List Char}, x ∈ TimeUnit.names →
      x.toList ++ ')' :: s ≠ ("TimeUnit(" ++ toString n ++ ")").toList ++ ')' :: t := by
    intro x n s t hx heq
    have first := congrArg List.head? heq
    rw [List.head?_append, (unit_names.2 x hx).2] at first
    simp at first
  rcases unit_cases hu with ⟨i, hi, hx⟩ | hx
  · have named := List.mem_of_getElem? hx
    rcases unit_cases hv with ⟨j, hj, hy⟩ | hy
    · obtain ⟨same, rest⟩ := closed_eq (unit_names.2 _ named).1
        (unit_names.2 _ (List.mem_of_getElem? hy)).1 h
      have lt := (List.getElem?_eq_some_iff.1 hx).1
      have hij : i = j := (List.getElem?_inj lt unit_names.1).1 (by rw [hx, hy, same])
      exact ⟨same_code (by rw [hi, hj, hij]), rest⟩
    · rw [hy] at h
      exact absurd h (apart named)
  · rcases unit_cases hv with ⟨j, hj, hy⟩ | hy
    · rw [hx] at h
      exact absurd h.symm (apart (List.mem_of_getElem? hy))
    · rw [hx, hy, String.append_assoc, String.append_assoc] at h
      simp only [String.toList_append, List.append_assoc] at h
      obtain ⟨same, rest⟩ := toString_eq (by simp) (by simp) (List.append_cancel_left h)
      exact ⟨same_code same, by simpa using rest⟩

/-- What stands after a list of events. -/
def Unlisted (s : List Char) : Prop := Ended s ∧ ∀ r, s ≠ ' ' :: 't' :: r

/-- The character that tells which events of a list are waited for. -/
def mark (choice : Bool) : Char := if choice then '|' else '&'

theorem mark_inj {c c' : Bool} (h : mark c = mark c') : c = c' := by
  revert h
  cases c <;> cases c' <;> decide

theorem chars_events (c : Bool) (es : List Event) :
    ((if c then " | " else " & ").intercalate (es.map Event.text)).toList =
      [' ', mark c, ' '].intercalate (es.map fun e => e.text.toList) := by
  rw [String.toList_intercalate, List.map_map]
  cases c <;> rfl

theorem events_eq (hw : w.Legible) {c c' : Bool} {es es' : List Event} (hes : ∀ e ∈ es, e ∈ w.events)
    (hes' : ∀ e ∈ es', e ∈ w.events)
    (h : [' ', mark c, ' '].intercalate (es.map fun e => e.text.toList) ++ '}' :: s =
      [' ', mark c', ' '].intercalate (es'.map fun e => e.text.toList) ++ '}' :: t) :
    es = es' ∧ (c = c' ∨ es.length ≤ 1) ∧ s = t := by
  have item : ∀ a b u v, a ∈ w.events → b ∈ w.events → (∀ x ∈ u.head?, x ∈ [' ', '}']) →
      (∀ x ∈ v.head?, x ∈ [' ', '}']) → a.text.toList ++ u = b.text.toList ++ v → id a = id b ∧ u = v := by
    intro a b u v ha hb hu hv heq
    have avoided : [' ', '}'] ⊆ [' ', '@', '[', '}', ')'] := by simp
    exact hw.events.read ha hb (fun x hx => avoided (hu x hx)) (fun x hx => avoided (hv x hx)) heq
  have begins : ∀ a ∈ w.events, ∃ x r, a.text.toList = x :: r ∧ x ≠ '}' := fun a ha =>
    hw.events.begins ha (by simp)
  by_cases hc : c = c'
  · subst hc
    obtain ⟨same, rest⟩ := intercalate_eq (by decide) item begins (by simp) (by simp) hes hes' h
    exact ⟨by simpa using same, .inl rfl, rest⟩
  -- With different marks, neither list goes on after its first event.
  · have notClose : ∀ a ∈ w.events, ∀ u v, a.text.toList ++ u ≠ '}' :: v := by
      intro a ha u v heq
      obtain ⟨x, r, hx, hne⟩ := begins a ha
      rw [hx] at heq
      exact hne (List.cons.inj heq).1
    cases es with
    | nil =>
        cases es' with
        | nil => exact ⟨rfl, .inr (by simp), by simpa using h⟩
        | cons b es' =>
            rw [List.map_cons, intercalate_cons, List.append_assoc] at h
            exact absurd h.symm (notClose b (hes' b (by simp)) _ _)
    | cons a es =>
        cases es' with
        | nil =>
            rw [List.map_cons, intercalate_cons, List.append_assoc] at h
            exact absurd h (notClose a (hes a (by simp)) _ _)
        | cons b es' =>
            rw [List.map_cons, List.map_cons, intercalate_cons, intercalate_cons, List.append_assoc,
              List.append_assoc] at h
            obtain ⟨same, rest⟩ := item a b _ _ (hes a (by simp)) (hes' b (by simp))
              (by cases es <;> simp) (by cases es' <;> simp) h
            cases es with
            | nil =>
                cases es' with
                | nil => exact ⟨congrArg (fun e => [e]) same, .inr (by simp), by simpa using rest⟩
                | cons b' es' => simp at rest
            | cons a' es =>
                cases es' with
                | nil => simp at rest
                | cons b' es' =>
                    simp only [List.map_cons, List.flatMap_cons, List.cons_append] at rest
                    exact absurd (mark_inj (List.cons.inj (List.cons.inj rest).2).1) hc

theorem timeout_eq {d d' : Option Delay} (hs : Unlisted s) (ht : Unlisted t)
    (h : (match d with | some d => " timeout " ++ d.text | none => "").toList ++ s =
      (match d' with | some d => " timeout " ++ d.text | none => "").toList ++ t) : d = d' ∧ s = t := by
  cases d with
  | none =>
      cases d' with
      | none => exact ⟨rfl, by simpa using h⟩
      | some e' => exact absurd (by simpa using h) (hs.2 _)
  | some e =>
      cases d' with
      | none => exact absurd (by simpa using h.symm) (ht.2 _)
      | some e' =>
          simp only [String.toList_append, List.append_assoc] at h
          obtain ⟨rfl, rest⟩ := delay_eq hs.1 ht.1 (List.append_cancel_left h)
          exact ⟨rfl, rest⟩

theorem eventList_eq (hw : w.Legible) {l l' : EventList} (hl : l.Within w) (hl' : l'.Within w)
    (hs : Unlisted s) (ht : Unlisted t) (h : l.text.toList ++ s = l'.text.toList ++ t) :
    l.content = l'.content ∧ s = t := by
  obtain ⟨es, c, d⟩ := l
  obtain ⟨es', c', d'⟩ := l'
  simp only [EventList.text, String.toList_append, chars_events, List.append_assoc] at h
  obtain ⟨rfl, hc, h⟩ := events_eq hw hl hl' (List.append_cancel_left h)
  obtain ⟨rfl, rest⟩ := timeout_eq hs ht h
  refine ⟨?_, rest⟩
  rcases hc with rfl | few
  · rfl
  · simp [EventList.content, few]

theorem literal_eq (hw : w.Legible) {l l' : Literal} (hl : (Payload.literal l).Within w)
    (hl' : (Payload.literal l').Within w) (hkind : l.kind = l'.kind)
    (h : l.render.toList ++ ')' :: s = l'.render.toList ++ ')' :: t) : l = l' ∧ s = t := by
  have delays : ∀ d : Delay, ')' ∉ d.text.toList := fun d => notMem_delay (by decide)
  rcases l with _ | n | b | x | u | (_ | fs) | e | i <;>
    rcases l' with _ | n' | b' | x' | u' | (_ | fs') | e' | i' <;> simp [Literal.kind] at hkind
  · exact ⟨rfl, by simpa using h⟩
  · obtain ⟨same, rest⟩ := toString_eq (by simp) (by simp) h
    exact ⟨by rw [Int64.toInt_inj.1 same], by simpa using rest⟩
  · cases b <;> cases b' <;> simp [Literal.render] at h ⊢ <;> exact h
  · obtain ⟨rfl, rest⟩ := closed_eq hl hl' h
    exact ⟨rfl, rest⟩
  · obtain ⟨rfl, rest⟩ := unit_eq hl hl' h
    exact ⟨rfl, rest⟩
  · exact ⟨rfl, by simpa using h⟩
  · obtain ⟨same, rest⟩ := closed_eq (delays _) (delays _) h
    exact ⟨by rw [delay_text_inj same], rest⟩
  · obtain ⟨rfl, rest⟩ := hw.events.read hl hl' (by simp) (by simp) h
    exact ⟨rfl, (List.cons.inj rest).2⟩
  · obtain ⟨rfl, rest⟩ := hw.instances.read hl hl' (by simp) (by simp) h
    exact ⟨rfl, (List.cons.inj rest).2⟩

theorem payload_eq (hw : w.Legible) {p q : Payload} (hp : p.Within w) (hq : q.Within w)
    (hkind : p.kind = q.kind) (h : p.text.toList ++ ')' :: s = q.text.toList ++ ')' :: t) :
    (Value.known p).content = (Value.known q).content ∧ s = t := by
  have lists : ∀ l : Literal, l.kind ≠ "*explore.EventBlocker" ∧ l.kind ≠ "explore.Variable" := by
    rintro (_ | _ | _ | _ | _ | (_ | _) | _ | _) <;> simp [Literal.kind]
  cases p with
  | literal l =>
      cases q with
      | literal l' =>
          obtain ⟨rfl, rest⟩ := literal_eq hw hp hq hkind h
          exact ⟨rfl, rest⟩
      | target v => exact absurd hkind (lists l).2
      | events n l' => exact absurd hkind (lists l).1
  | target v =>
      cases q with
      | literal l' => exact absurd hkind.symm (lists l').2
      | target v' =>
          obtain ⟨same, rest⟩ := closed_eq hp.2 hq.2 h
          exact ⟨by rw [hw.vars.inj hp.1 hq.1 same], rest⟩
      | events n l' => simp [Payload.kind] at hkind
  | events n l =>
      cases q with
      | literal l' => exact absurd hkind.symm (lists l').1
      | target v => simp [Payload.kind] at hkind
      | events n' l' =>
          have ends : ∀ r, Unlisted (')' :: r) := fun r => ⟨by simp [Ended], by simp⟩
          obtain ⟨same, rest⟩ := eventList_eq hw hp hq (ends s) (ends t) h
          exact ⟨by simp only [Value.content, same], (List.cons.inj rest).2⟩

theorem kind_chars (p : Payload) : ∀ c ∈ p.kind.toList, c ≠ '(' := by
  rcases p with (_ | _ | _ | _ | _ | (_ | _) | _ | _) | _ | _ <;> simp [Payload.kind, Literal.kind]

theorem kind_head (p : Payload) : ∃ c r, p.kind.toList = c :: r ∧ c ≠ '?' ∧ c ≠ '_' ∧ c ≠ ')' := by
  rcases p with (_ | _ | _ | _ | _ | (_ | _) | _ | _) | _ | _ <;> simp [Payload.kind, Literal.kind]

theorem key_known (p : Payload) (s : List Char) : (Value.known p).key.toList ++ s =
    p.kind.toList ++ '(' :: (p.text.toList ++ ')' :: s) := by
  simp [Value.key]

theorem key_head (x : Value) : ∃ c r, x.key.toList = c :: r ∧ c ≠ '_' ∧ c ≠ ')' := by
  cases x with
  | unknown => exact ⟨'?', [], by simp [Value.key]⟩
  | known p =>
      obtain ⟨c, r, hc, -, rest⟩ := kind_head p
      exact ⟨c, _, by simp [Value.key, hc]; rfl, rest⟩

/-- The key of a value ends where it says, whatever follows. -/
theorem value_eq (hw : w.Legible) {x y : Value} (hx : x.Within w) (hy : y.Within w)
    (h : x.key.toList ++ s = y.key.toList ++ t) : x.content = y.content ∧ s = t := by
  have apart : ∀ (p : Payload) (u v : List Char), (Value.known p).key.toList ++ u ≠ '?' :: v := by
    intro p u v heq
    obtain ⟨c, r, hc, hne, -⟩ := kind_head p
    rw [key_known, hc] at heq
    exact hne (List.cons.inj heq).1
  cases x with
  | unknown =>
      cases y with
      | unknown => exact ⟨rfl, by simpa [Value.key] using h⟩
      | known q => exact absurd h.symm (apart q t s)
  | known p =>
      cases y with
      | unknown => exact absurd h (apart p s t)
      | known q =>
          rw [key_known, key_known] at h
          obtain ⟨same, rest⟩ := span_eq (p := (· ≠ '(')) (kind_chars p) (kind_chars q) (by simp)
            (by simp) h
          exact payload_eq hw hx hy (String.toList_inj.1 same) (List.cons.inj rest).2

end Reading

end DeltaSlice
