import DeltaSlice.Proofs.Keys.Values
import DeltaSlice.Proofs.Table
import DeltaSlice.Proofs.Text
import Mathlib.Data.List.Perm.Basic

/-!
What the keys of frames, stores and processes tell: all of their content. The content leaves out the
order in which tables were filled and the numbers of event lists.
-/

namespace DeltaSlice

def Blocker.content : Blocker → Blocker
  | events l => events l.content
  | b => b

def Frame.content (f : Frame) : Frame :=
  { f with
    receiver := f.receiver.content
    levels := f.levels.map fun l => l.map fun x => x.map Value.content }

def Store.content (s : Store) : Variable → Option Value := fun v => (s.get? v).map Value.content

structure ProcessContent where
  blocker : Option Blocker
  stack : List Frame
  locals : Variable → Option Value

def ProcessState.content (ps : ProcessState) : ProcessContent :=
  ⟨ps.blocker.map Blocker.content, ps.stack.map Frame.content, Store.content ps.locals⟩

section Within

variable (w : Vocabulary)

structure Store.Within (s : Store) : Prop where
  keys : (s.entries.map (·.1)).Nodup
  vars : ∀ e ∈ s.entries, e.1 ∈ w.vars
  values : ∀ e ∈ s.entries, e.2.Within w

structure Frame.Within (f : Frame) : Prop where
  routine : f.location.routine ∈ w.routines
  receiver : f.receiver.Within w
  slots : ∀ l ∈ f.levels, ∀ x ∈ l, ∀ v, x = some v → v.Within w

structure ProcessState.Within (ps : ProcessState) : Prop where
  blocker : ∀ l, ps.blocker = some (.events l) → l.Within w
  stack : ∀ f ∈ ps.stack, f.Within w
  locals : Store.Within w ps.locals

end Within

namespace Reading

variable {w : Vocabulary} {s t : List Char}

theorem location_eq (hw : w.Legible) {l l' : Location} (hl : l.routine ∈ w.routines)
    (hl' : l'.routine ∈ w.routines) (h : l.text.toList ++ s = l'.text.toList ++ t) :
    l = l' ∧ s = t := hw.routines.readable.location (by simp) hl hl' h

/-- What stands after the results of a frame. -/
def Unslotted (s : List Char) : Prop := ∀ r, s ≠ ' ' :: '(' :: r

theorem slot_eq (hw : w.Legible) {x y : Option Value} (hx : ∀ v, x = some v → v.Within w)
    (hy : ∀ v, y = some v → v.Within w)
    (h : (Frame.slotKey x).toList ++ s = (Frame.slotKey y).toList ++ t) :
    x.map Value.content = y.map Value.content ∧ s = t := by
  have apart : ∀ (v : Value) (a b : List Char), v.key.toList ++ a ≠ '_' :: b := by
    intro v a b heq
    obtain ⟨c, r, hc, hne, -⟩ := key_head v
    rw [hc] at heq
    exact hne (List.cons.inj heq).1
  cases x with
  | none =>
      cases y with
      | none => exact ⟨rfl, by simpa [Frame.slotKey] using h⟩
      | some v => exact absurd h.symm (apart v t s)
  | some v =>
      cases y with
      | none => exact absurd h (apart v s t)
      | some v' =>
          obtain ⟨same, rest⟩ := value_eq hw (hx v rfl) (hy v' rfl) h
          exact ⟨congrArg some same, rest⟩

theorem slot_begins (x : Option Value) : ∃ c r, (Frame.slotKey x).toList = c :: r ∧ c ≠ ')' := by
  cases x with
  | none => exact ⟨'_', [], rfl, by decide⟩
  | some v =>
      obtain ⟨c, r, hc, -, hne⟩ := key_head v
      exact ⟨c, r, hc, hne⟩

/-- The results on one level, in brackets. -/
theorem level_eq (hw : w.Legible) {l l' : Level} (hl : ∀ x ∈ l, ∀ v, x = some v → v.Within w)
    (hl' : ∀ x ∈ l', ∀ v, x = some v → v.Within w)
    (h : (",".intercalate (l.map Frame.slotKey)).toList ++ ')' :: s =
      (",".intercalate (l'.map Frame.slotKey)).toList ++ ')' :: t) :
    l.map (Option.map Value.content) = l'.map (Option.map Value.content) ∧ s = t := by
  rw [String.toList_intercalate, String.toList_intercalate, List.map_map, List.map_map] at h
  have item : ∀ (x y : Option Value) (u v : List Char), (∀ a, x = some a → a.Within w) →
      (∀ a, y = some a → a.Within w) → True → True →
      (String.toList ∘ Frame.slotKey) x ++ u = (String.toList ∘ Frame.slotKey) y ++ v →
      x.map Value.content = y.map Value.content ∧ u = v := fun x y u v hx hy _ _ => slot_eq hw hx hy
  exact intercalate_eq (by decide) item (fun x _ => slot_begins x) (by simp) (by simp) hl hl' h

/-- One level as it stands in the key of a frame. -/
def levelChars (l : Level) : List Char :=
  (" (" ++ ",".intercalate (l.map Frame.slotKey) ++ ")").toList

theorem levelChars_begins (l : Level) : ∃ r, levelChars l = ' ' :: '(' :: r := by
  rw [levelChars, String.append_assoc, String.toList_append]
  exact ⟨_, rfl⟩

theorem frame_eq (hw : w.Legible) {f g : Frame} (hf : f.Within w) (hg : g.Within w)
    (hs : Unslotted s) (ht : Unslotted t) (h : f.key.toList ++ s = g.key.toList ++ t) :
    f.content = g.content ∧ s = t := by
  have chars : ∀ (f : Frame) (u : List Char), f.key.toList ++ u = f.location.text.toList ++
      '@' :: ((toString f.comingFrom).toList ++ (" this=".toList ++ (f.receiver.key.toList ++
        (f.levels.reverse.flatMap levelChars ++ u)))) := by
    intro f u
    unfold levelChars
    simp only [Frame.key, String.toList_append, String.toList_join, List.append_assoc,
      List.flatMap_map]
    rfl
  have item : ∀ (l l' : Level) (u v : List Char), (∀ x ∈ l, ∀ a, x = some a → a.Within w) →
      (∀ x ∈ l', ∀ a, x = some a → a.Within w) → True → True →
      levelChars l ++ u = levelChars l' ++ v →
      l.map (Option.map Value.content) = l'.map (Option.map Value.content) ∧ u = v := by
    intro l l' u v hl hl' _ _ heq
    simp only [levelChars, String.toList_append, List.append_assoc] at heq
    exact level_eq hw hl hl' (List.append_cancel_left heq)
  have apart : ∀ (l : Level) (u v : List Char), (∀ x ∈ l, ∀ a, x = some a → a.Within w) →
      Unslotted v → levelChars l ++ u ≠ v := by
    intro l u v _ hv heq
    obtain ⟨r, hr⟩ := levelChars_begins l
    exact hv (r ++ u) (by rw [← heq, hr]; rfl)
  rw [chars, chars] at h
  obtain ⟨location, h⟩ := location_eq hw hf.routine hg.routine h
  obtain ⟨coming, h⟩ := toString_eq (by simp) (by simp) (List.cons.inj h).2
  obtain ⟨receiver, h⟩ := value_eq hw hf.receiver hg.receiver (List.append_cancel_left h)
  obtain ⟨levels, rest⟩ := flatMap_eq item apart (fun _ _ _ => trivial) (fun _ _ => trivial)
    (fun l hl => hf.slots l (List.mem_reverse.1 hl)) (fun l hl => hg.slots l (List.mem_reverse.1 hl))
    hs ht h
  rw [List.map_reverse, List.map_reverse, List.reverse_inj] at levels
  refine ⟨?_, rest⟩
  simp only [Frame.content, location, coming, receiver]
  rw [levels]

/-- What stands after a store: another line, or nothing. -/
def Ending (s : List Char) : Prop := ∀ c ∈ s.head?, c = '\n'

/-- Sorting reorders the entries of which the texts are made. -/
theorem exists_sorted {α : Type} (text : α → String) (l : List α) :
    ∃ l' : List α, l'.Perm l ∧ sortByText id (l.map text) = l'.map text := by
  have perm := sortByText_perm id (l.map text)
  have made : List.Forall₂ (fun x a => x = text a) (l.map text) l :=
    List.forall₂_map_left_iff.2 (List.forall₂_same.2 fun _ _ => rfl)
  obtain ⟨l', same, reordered⟩ := List.perm_comp_forall₂ perm made
  refine ⟨l', reordered, ?_⟩
  rwa [← List.forall₂_eq_eq_eq, List.forall₂_map_right_iff]

def entryText (e : Variable × Value) : String := e.1.text ++ "=" ++ e.2.key

theorem entry_eq (hw : w.Legible) {e e' : Variable × Value} (he : e.1 ∈ w.vars ∧ e.2.Within w)
    (he' : e'.1 ∈ w.vars ∧ e'.2.Within w)
    (h : (entryText e).toList ++ s = (entryText e').toList ++ t) :
    (e.1, e.2.content) = (e'.1, e'.2.content) ∧ s = t := by
  simp only [entryText, String.toList_append, List.append_assoc] at h
  obtain ⟨same, h⟩ := hw.vars.read he.1 he'.1 (by simp) (by simp) h
  obtain ⟨content, rest⟩ := value_eq hw he.2 he'.2 (List.append_cancel_left h)
  exact ⟨by rw [same, content], rest⟩

/-- A store holds what its entries say. -/
theorem content_eq_some {m : Store} (hm : (m.entries.map (·.1)).Nodup) {v : Variable} {x : Value} :
    Store.content m v = some x ↔ (v, x) ∈ m.entries.map fun e => (e.1, e.2.content) := by
  unfold Store.content
  rw [Option.map_eq_some_iff, List.mem_map]
  constructor
  · rintro ⟨y, hy, rfl⟩
    exact ⟨(v, y), Table.mem_of_get? hy, rfl⟩
  · rintro ⟨⟨v', y⟩, hy, heq⟩
    obtain ⟨rfl, rfl⟩ := Prod.mk.inj heq
    exact ⟨y, Table.get?_of_mem hm hy, rfl⟩

theorem chars_store {m : Store} (hm : m.entries ≠ []) : ∃ es : List (Variable × Value),
    es.Perm m.entries ∧ es ≠ [] ∧ (Store.key m).toList =
      ' ' :: '\x7b' :: ([','].intercalate (es.map (String.toList ∘ entryText)) ++ ['\x7d']) := by
  obtain ⟨es, perm, sorted⟩ := exists_sorted entryText m.entries
  refine ⟨es, perm, fun hnil => hm (by simpa [hnil] using perm), ?_⟩
  have some : m.isEmpty = false := by simpa [Table.isEmpty] using hm
  have texts : (fun e : Variable × Value => e.1.text ++ "=" ++ e.2.key) = entryText := rfl
  simp only [Store.key, some, Bool.false_eq_true, if_false, texts, sorted, String.toList_append,
    String.toList_intercalate, List.map_map, List.append_assoc]
  rfl

theorem store_eq (hw : w.Legible) {m m' : Store} (hm : Store.Within w m) (hm' : Store.Within w m')
    (hs : Ending s) (ht : Ending t) (h : (Store.key m).toList ++ s = (Store.key m').toList ++ t) :
    Store.content m = Store.content m' ∧ s = t := by
  have empty : ∀ {m : Store}, m.entries = [] → (Store.key m).toList = [] := by
    intro m hm
    simp [Store.key, Table.isEmpty, hm]
  have apart : ∀ {u v : List Char}, Ending u → u ≠ ' ' :: v := by
    rintro u v hu rfl
    exact absurd (hu ' ' rfl) (by decide)
  by_cases he : m.entries = []
  · by_cases he' : m'.entries = []
    · rw [empty he, empty he'] at h
      refine ⟨?_, by simpa using h⟩
      funext v
      simp [Store.content, Table.get?, he, he']
    · obtain ⟨es', -, -, chars'⟩ := chars_store he'
      rw [empty he, chars'] at h
      exact absurd h (apart hs)
  · obtain ⟨es, perm, hes, chars⟩ := chars_store he
    by_cases he' : m'.entries = []
    · rw [empty he', chars] at h
      exact absurd h.symm (apart ht)
    · obtain ⟨es', perm', hes', chars'⟩ := chars_store he'
      have item : ∀ (e e' : Variable × Value) (u v : List Char), (e.1 ∈ w.vars ∧ e.2.Within w) →
          (e'.1 ∈ w.vars ∧ e'.2.Within w) → True → True →
          (String.toList ∘ entryText) e ++ u = (String.toList ∘ entryText) e' ++ v →
          (e.1, e.2.content) = (e'.1, e'.2.content) ∧ u = v :=
        fun e e' u v he he' _ _ heq => entry_eq hw he he' heq
      rw [chars, chars'] at h
      simp only [List.cons_append, List.append_assoc, List.cons.injEq, true_and] at h
      obtain ⟨e, rest, rfl⟩ := List.exists_cons_of_ne_nil hes
      obtain ⟨e', rest', rfl⟩ := List.exists_cons_of_ne_nil hes'
      obtain ⟨same, ending⟩ := intercalate_cons_eq (by decide) item (fun _ => trivial)
        (fun _ => trivial) (fun x hx => ⟨hm.vars x (perm.mem_iff.1 hx), hm.values x (perm.mem_iff.1 hx)⟩)
        (fun x hx => ⟨hm'.vars x (perm'.mem_iff.1 hx), hm'.values x (perm'.mem_iff.1 hx)⟩) h
      refine ⟨?_, ending⟩
      funext v
      refine Option.ext fun x => ?_
      rw [content_eq_some hm.keys, content_eq_some hm'.keys, ← (perm.map _).mem_iff, same,
        (perm'.map _).mem_iff]

/-- Blockers other than event lists are words. -/
theorem blocker_word {b : Option Blocker} (hb : ∀ l, b ≠ some (.events l)) :
    ∀ c ∈ (Blocker.key b).toList, ¬ (c = ' ' ∨ c = '\n' ∨ c = ')') ∧ c ≠ '\x7b' := by
  rcases b with _ | _ | d | l
  · simp [Blocker.key]
  · simp [Blocker.key, Blocker.text]
  · exact fun c hc => ⟨delay_chars d c hc, fun heq => notMem_delay (by decide) (heq ▸ hc)⟩
  · exact absurd rfl (hb l)

theorem blocker_word_inj {b b' : Option Blocker} (hb : ∀ l, b ≠ some (.events l))
    (hb' : ∀ l, b' ≠ some (.events l)) (h : Blocker.key b = Blocker.key b') : b = b' := by
  have other : ∀ (d : Delay) {x : String}, 'r' ∈ x.toList → d.text ≠ x := by
    rintro d x hx rfl
    exact notMem_delay (by decide) hx
  rcases b with _ | _ | d | l
  · rcases b' with _ | _ | d' | l'
    · rfl
    · simp [Blocker.key, Blocker.text] at h
    · exact absurd h.symm (other d' (by decide))
    · exact absurd rfl (hb' l')
  · rcases b' with _ | _ | d' | l'
    · simp [Blocker.key, Blocker.text] at h
    · rfl
    · exact absurd h.symm (other d' (by decide))
    · exact absurd rfl (hb' l')
  · rcases b' with _ | _ | d' | l'
    · exact absurd h (other d (by decide))
    · exact absurd h (other d (by decide))
    · rw [delay_text_inj h]
    · exact absurd rfl (hb' l')
  · exact absurd rfl (hb l)

theorem blocker_eq (hw : w.Legible) {b b' : Option Blocker}
    (hb : ∀ l, b = some (.events l) → l.Within w) (hb' : ∀ l, b' = some (.events l) → l.Within w)
    (hs : Unlisted s) (ht : Unlisted t)
    (h : (Blocker.key b).toList ++ s = (Blocker.key b').toList ++ t) :
    b.map Blocker.content = b'.map Blocker.content ∧ s = t := by
  -- A word does not start like a list.
  have apart : ∀ {b : Option Blocker} {l : EventList} {u v : List Char},
      (∀ l, b ≠ some (.events l)) → Ended u → (Blocker.key b).toList ++ u ≠ l.text.toList ++ v := by
    intro b l u v hb hu heq
    obtain ⟨r, hr⟩ : ∃ r, l.text.toList ++ v = '\x7b' :: r := ⟨_, by
      simp only [EventList.text, String.toList_append, List.append_assoc]; rfl⟩
    rw [hr] at heq
    cases hword : (Blocker.key b).toList with
    | nil =>
        rw [hword] at heq
        subst heq
        exact absurd (hu '\x7b' rfl) (by decide)
    | cons c cs =>
        rw [hword] at heq
        exact (blocker_word hb c (by simp [hword])).2 (List.cons.inj heq).1
  by_cases hl : ∃ l, b = some (.events l)
  · obtain ⟨l, rfl⟩ := hl
    by_cases hl' : ∃ l', b' = some (.events l')
    · obtain ⟨l', rfl⟩ := hl'
      obtain ⟨same, rest⟩ := eventList_eq hw (hb l rfl) (hb' l' rfl) hs ht h
      exact ⟨by simp only [Option.map_some, Blocker.content, same], rest⟩
    · exact absurd h.symm (apart (not_exists.1 hl') ht.1)
  · by_cases hl' : ∃ l', b' = some (.events l')
    · obtain ⟨l', rfl⟩ := hl'
      exact absurd h (apart (not_exists.1 hl) hs.1)
    · obtain ⟨same, rest⟩ := span_eq
        (fun c hc => (blocker_word (not_exists.1 hl) c hc).1)
        (fun c hc => (blocker_word (not_exists.1 hl') c hc).1)
        (fun c hc => not_not.2 (hs.1 c hc)) (fun c hc => not_not.2 (ht.1 c hc)) h
      have := blocker_word_inj (not_exists.1 hl) (not_exists.1 hl') (String.toList_inj.1 same)
      exact ⟨by rw [this], rest⟩

/-- One frame as it stands in the key of a process. -/
def frameChars (f : Frame) : List Char := (" | " ++ f.key).toList

theorem frameChars_begins (f : Frame) : ∃ r, frameChars f = ' ' :: '|' :: r := by
  rw [frameChars, String.toList_append]
  exact ⟨_, rfl⟩

/-- What stands after the frames of a process. -/
def Unframed (s : List Char) : Prop := ∀ c r, s = ' ' :: c :: r → c = '\x7b'

theorem store_unframed {m : Store} (hs : Ending s) : Unframed ((Store.key m).toList ++ s) := by
  by_cases hm : m.entries = []
  · have : (Store.key m).toList = [] := by simp [Store.key, Table.isEmpty, hm]
    rintro c r hr
    rw [this] at hr
    subst hr
    exact absurd (hs ' ' rfl) (by decide)
  · obtain ⟨es, -, -, chars⟩ := chars_store hm
    intro c r hr
    rw [chars] at hr
    exact (List.cons.inj (List.cons.inj hr).2).1.symm

theorem store_ended {m : Store} (hs : Ending s) : Ended ((Store.key m).toList ++ s) := by
  by_cases hm : m.entries = []
  · have : (Store.key m).toList = [] := by simp [Store.key, Table.isEmpty, hm]
    rw [this]
    exact fun c hc => .inr (.inl (hs c hc))
  · obtain ⟨es, -, -, chars⟩ := chars_store hm
    rw [chars]
    rintro c hc
    exact .inl (Option.some.inj hc).symm

theorem process_eq (hw : w.Legible) {p q : ProcessState} (hp : p.Within w) (hq : q.Within w)
    (hs : Ending s) (ht : Ending t) (h : p.key.toList ++ s = q.key.toList ++ t) :
    p.content = q.content ∧ s = t := by
  have chars : ∀ (p : ProcessState) (u : List Char), p.key.toList ++ u =
      (Blocker.key p.blocker).toList ++ (p.stack.reverse.flatMap frameChars ++
        ((Store.key p.locals).toList ++ u)) := by
    intro p u
    unfold frameChars
    simp only [ProcessState.key, String.toList_append, String.toList_join, List.append_assoc,
      List.flatMap_map]
  have unlisted : ∀ {p : ProcessState} {u : List Char}, Ending u →
      Unlisted (p.stack.reverse.flatMap frameChars ++ ((Store.key p.locals).toList ++ u)) := by
    intro p u hu
    cases p.stack.reverse with
    | nil =>
        refine ⟨store_ended hu, fun r hr => ?_⟩
        exact absurd (store_unframed hu _ _ hr) (by decide)
    | cons f fs =>
        obtain ⟨r, hr⟩ := frameChars_begins f
        rw [List.flatMap_cons, hr]
        exact ⟨by simp [Ended], by simp⟩
  have item : ∀ (f g : Frame) (u v : List Char), f.Within w → g.Within w → Unslotted u → Unslotted v →
      frameChars f ++ u = frameChars g ++ v → f.content = g.content ∧ u = v := by
    intro f g u v hf hg hu hv heq
    simp only [frameChars, String.toList_append, List.append_assoc] at heq
    exact frame_eq hw hf hg hu hv (List.append_cancel_left heq)
  have apart : ∀ (f : Frame) (u v : List Char), f.Within w → Unframed v → frameChars f ++ u ≠ v := by
    intro f u v _ hv heq
    obtain ⟨r, hr⟩ := frameChars_begins f
    exact absurd (hv '|' (r ++ u) (by rw [← heq, hr]; rfl)) (by decide)
  have more : ∀ (f : Frame) (u : List Char), f.Within w → Unslotted (frameChars f ++ u) := by
    intro f u _ r heq
    obtain ⟨r', hr⟩ := frameChars_begins f
    rw [hr] at heq
    simp at heq
  have last : ∀ u, Unframed u → Unslotted u := fun u hu r heq => absurd (hu _ _ heq) (by decide)
  rw [chars, chars] at h
  obtain ⟨blocker, h⟩ := blocker_eq hw hp.blocker hq.blocker (unlisted hs) (unlisted ht) h
  obtain ⟨stack, h⟩ := flatMap_eq item apart more last (fun f hf => hp.stack f (List.mem_reverse.1 hf))
    (fun f hf => hq.stack f (List.mem_reverse.1 hf)) (store_unframed hs) (store_unframed ht) h
  obtain ⟨locals, rest⟩ := store_eq hw hp.locals hq.locals hs ht h
  rw [List.map_reverse, List.map_reverse, List.reverse_inj] at stack
  exact ⟨by simp only [ProcessState.content, blocker, stack, locals], rest⟩

end Reading

end DeltaSlice
