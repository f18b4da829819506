import DeltaSlice.Pdg.Basic
import Mathlib

/-!
Texts of location stacks. They list calls and indices from the outside to the inside, so the text of
what is inside an expression starts with that of the expression. Where a text starts so far that a
comma follows an index, it belongs to something inside the expression of that index, whatever the
names of the routines are.
-/

namespace DeltaSlice

/-- The text `a` is the start of `b`. -/
def Starts (a b : String) : Prop := a.toList <+: b.toList

instance (a b : String) : Decidable (Starts a b) :=
  inferInstanceAs (Decidable (a.toList <+: b.toList))

namespace Starts

variable {a b c : String} {x : Char}

theorem refl (a : String) : Starts a a := List.prefix_refl _

theorem trans (h : Starts a b) (h' : Starts b c) : Starts a c := List.IsPrefix.trans h h'

theorem append (a b : String) : Starts a (a ++ b) := by
  unfold Starts
  rw [String.toList_append]
  exact List.prefix_append _ _

theorem append_left (a : String) (h : Starts b c) : Starts (a ++ b) (a ++ c) := by
  unfold Starts
  rw [String.toList_append, String.toList_append]
  exact (List.prefix_append_right_inj _).2 h

/-- A start that ends with a character ends before a part without that character. -/
theorem of_notMem (h : Starts (a.push x) (b ++ c)) (hx : x ∉ c.toList) : Starts (a.push x) b := by
  unfold Starts at h ⊢
  rw [String.toList_append] at h
  rw [String.toList_push] at h ⊢
  by_cases hlen : (a.toList ++ [x]).length ≤ b.toList.length
  · exact List.prefix_of_prefix_length_le h (List.prefix_append _ _) hlen
  · have longer : b.toList.length ≤ (a.toList ++ [x]).length := by omega
    obtain ⟨d, hd⟩ := List.prefix_of_prefix_length_le (List.prefix_append _ _) h longer
    rw [← hd, List.prefix_append_right_inj] at h
    have hne : d ≠ [] := by
      rintro rfl
      rw [List.append_nil] at hd
      exact hlen (by rw [hd])
    have hlast : d.getLast hne = x := by
      have := congrArg (fun l => l.getLast?) hd
      simpa [List.getLast?_append, List.getLast?_eq_some_getLast hne] using this
    exact absurd (h.subset (hlast ▸ List.getLast_mem hne)) hx

end Starts

theorem isDigit_of_mem_toString {i : Int} {c : Char} (h : c ∈ (toString i).toList) :
    c = '-' ∨ c.isDigit = true := by
  have digits : ∀ {n : Nat}, c ∈ n.repr.toList → c.isDigit = true := by
    intro n hc
    rw [Nat.repr_eq_ofList_toDigits, String.toList_ofList] at hc
    exact Nat.isDigit_of_mem_toDigits (by decide) (by decide) hc
  have hrepr : toString i = i.repr := rfl
  rw [hrepr, Int.repr_eq_if] at h
  split at h
  · exact .inr (digits h)
  · rw [String.toList_append] at h
    rcases List.mem_append.1 h with h | h
    · exact .inl (List.mem_singleton.1 h)
    · exact .inr (digits h)

theorem notMem_toString {c : Char} (hc : c ≠ '-' ∧ c.isDigit = false) (i : Int) :
    c ∉ (toString i).toList := by
  intro h
  cases isDigit_of_mem_toString h with
  | inl h => exact hc.1 h
  | inr h => rw [hc.2] at h; cases h

/-- Where one word ends in a character that the other one has not, and the other way round, they end
at the same place. -/
theorem eq_of_push_prefix {as bs ds : List Char} {x y : Char} (h : as ++ [x] <+: bs ++ y :: ds)
    (hy : y ∉ as) (hx : x ∉ bs) : as = bs := by
  induction as generalizing bs with
  | nil =>
      cases bs with
      | nil => rfl
      | cons z bs => exact absurd (List.cons_prefix_cons.1 h).1 (List.ne_of_not_mem_cons hx)
  | cons z as ih =>
      cases bs with
      | nil => exact absurd (List.cons_prefix_cons.1 h).1.symm (List.ne_of_not_mem_cons hy)
      | cons w bs =>
          obtain ⟨rfl, hrest⟩ := List.cons_prefix_cons.1 h
          rw [ih hrest (List.not_mem_of_not_mem_cons hy) (List.not_mem_of_not_mem_cons hx)]

namespace Path

/-- The indices of a path before those that go on from it. -/
def ahead : Path → String
  | [] => ""
  | i :: up => ahead up ++ toString i ++ ","

theorem intercalate_reverse (i : Int) (up : Path) :
    ",".intercalate ((i :: up).reverse.map toString) = ahead up ++ toString i := by
  induction up generalizing i with
  | nil => simp [ahead]
  | cons j up ih =>
      rw [List.reverse_cons, List.map_append, List.map_singleton,
        String.intercalate_append_of_ne_nil (by simp) (by simp), ih, String.intercalate_singleton]
      rfl

theorem starts_ahead (q up : Path) : Starts (ahead up) (ahead (q ++ up)) := by
  induction q with
  | nil => exact .refl _
  | cons i q ih =>
      have step : ahead (i :: q ++ up) = ahead (q ++ up) ++ (toString i ++ ",") :=
        String.append_assoc
      rw [step]
      exact ih.trans (.append _ _)

end Path

theorem Location.text_cons (r : Routine) (i : Int) (up : Path) :
    Location.text ⟨r, i :: up⟩ = r.text ++ "[" ++ up.ahead ++ toString i ++ "]" := by
  unfold Location.text
  rw [Path.intercalate_reverse]
  simp only [String.append_assoc]

namespace Stack

/-- The text of the callers, as it stands before that of the location they lead to. -/
def ahead : Stack → String
  | [] => ""
  | l :: rest => Stack.text (l :: rest) ++ "/"

theorem text_cons (l : Location) (rest : Stack) : Stack.text (l :: rest) = rest.ahead ++ l.text := by
  unfold Stack.text
  rw [List.reverse_cons, List.map_append, List.map_singleton]
  cases rest with
  | nil => simp [ahead]
  | cons k rest =>
      rw [String.intercalate_append_of_ne_nil (by simp) (by simp), String.intercalate_singleton]
      rfl

theorem starts_text (pre : Stack) (l : Location) (rest : Stack) :
    Starts (Stack.text (l :: rest)) (Stack.text (pre ++ l :: rest)) := by
  induction pre with
  | nil => exact .refl _
  | cons k pre ih =>
      refine ih.trans ?_
      rw [List.cons_append, text_cons k]
      cases hpre : pre ++ l :: rest with
      | nil => simp at hpre
      | cons m st => exact (Starts.append _ _).trans (.append _ _)

end Stack

namespace StatementId

variable (o : Option Instance) (rest : Stack) (r : Routine)

/-- The part of a key that all locations below the same path in the same frame share. -/
def before (up : Path) : String :=
  (o.map (·.name)).getD "-" ++ " " ++ rest.ahead ++ r.text ++ "[" ++ up.ahead

theorem key_cons (i : Int) (up : Path) :
    (point o (⟨r, i :: up⟩ :: rest)).key = before o rest r up ++ (toString i ++ "]") := by
  change _ ++ " " ++ Stack.text _ = _
  rw [Stack.text_cons, Location.text_cons, before]
  simp only [String.append_assoc]

theorem key_nil : (point o (⟨r, []⟩ :: rest)).key = before o rest r [] ++ "]" := by
  change _ ++ " " ++ Stack.text _ = _
  rw [Stack.text_cons, before]
  simp [Location.text, Path.ahead, String.append_assoc]

theorem starts_before (q up : Path) : Starts (before o rest r up) (before o rest r (q ++ up)) := by
  unfold before
  exact (Path.starts_ahead q up).append_left _

/-- Whatever is below a path has a key that starts with the path. -/
theorem starts_key (pre : Stack) (q : Path) (i : Int) (up : Path) :
    Starts (before o rest r up) (point o (pre ++ ⟨r, q ++ i :: up⟩ :: rest)).key := by
  have inner : Starts (before o rest r up) (point o (⟨r, q ++ i :: up⟩ :: rest)).key := by
    cases q with
    | nil =>
        rw [List.nil_append, key_cons]
        exact .append _ _
    | cons j q =>
        rw [List.cons_append, key_cons]
        have longer := starts_before o rest r (q ++ [i]) up
        rw [List.append_assoc, List.singleton_append] at longer
        exact longer.trans (.append _ _)
  exact inner.trans ((Stack.starts_text pre _ rest).append_left _)

theorem starts_key_nil (pre : Stack) (path : Path) :
    Starts (before o rest r []) (point o (pre ++ ⟨r, path⟩ :: rest)).key := by
  cases path with
  | nil =>
      have inner : Starts (before o rest r []) (point o (⟨r, []⟩ :: rest)).key := by
        rw [key_nil]
        exact .append _ _
      exact inner.trans ((Stack.starts_text pre _ rest).append_left _)
  | cons i up =>
      refine (starts_before o rest r up []).trans ?_
      rw [List.append_nil]
      exact starts_key o rest r pre [] i up

/-- A key of which a start ends with a comma has that start before its last index. -/
theorem starts_before_of_comma {a : String} {i : Int} {up : Path}
    (h : Starts (a.push ',') (point o (⟨r, i :: up⟩ :: rest)).key) :
    Starts (a.push ',') (before o rest r up) := by
  rw [key_cons] at h
  refine h.of_notMem ?_
  rw [String.toList_append, List.mem_append]
  rintro (h | h)
  · exact notMem_toString (by decide) i h
  · exact absurd h (by decide)

theorem starts_before_nil_of_comma {a : String}
    (h : Starts (a.push ',') (point o (⟨r, []⟩ :: rest)).key) :
    Starts (a.push ',') (before o rest r []) := by
  rw [key_nil] at h
  exact h.of_notMem (by decide)

theorem before_cons (i : Int) (up : Path) :
    before o rest r (i :: up) = (before o rest r up ++ toString i).push ',' := by
  unfold before
  rw [Path.ahead, String.push_eq_append]
  simp only [String.append_assoc]
  rfl

/-- In the key of what is in a child, the index of the child ends with a comma or a bracket. -/
theorem starts_child (pre : Stack) (q : Path) (k : Int) (up : Path) :
    ∃ y, (y = ',' ∨ y = ']') ∧ Starts ((before o rest r up ++ toString k).push y)
      (point o (pre ++ ⟨r, q ++ k :: up⟩ :: rest)).key := by
  cases q using List.reverseRecOn with
  | nil =>
      refine ⟨']', .inr rfl, ?_⟩
      have inner : (before o rest r up ++ toString k).push ']' =
          (point o (⟨r, k :: up⟩ :: rest)).key := by
        rw [key_cons, String.push_eq_append, String.append_assoc]
        rfl
      rw [inner]
      exact (Stack.starts_text pre _ rest).append_left _
  | append_singleton q i =>
      refine ⟨',', .inl rfl, ?_⟩
      rw [← before_cons, List.append_assoc, List.singleton_append]
      exact starts_key o rest r pre q i (k :: up)

/-- What is in one child of an expression is not inside another child. -/
theorem eq_of_starts {pre : Stack} {q : Path} {j k : Int} {up : Path}
    (h : Starts (before o rest r (j :: up)) (point o (pre ++ ⟨r, q ++ k :: up⟩ :: rest)).key) :
    j = k := by
  obtain ⟨y, hy, d, hd⟩ := starts_child o rest r pre q k up
  rw [before_cons] at h
  unfold Starts at h
  rw [← hd] at h
  simp only [String.toList_push, String.toList_append, List.append_assoc, List.singleton_append,
    List.prefix_append_right_inj] at h
  have other : y ∉ (toString j).toList := by
    cases hy with
    | inl hy => exact hy ▸ notMem_toString (by decide) j
    | inr hy => exact hy ▸ notMem_toString (by decide) j
  have same := eq_of_push_prefix h other (notMem_toString (by decide) k)
  exact Int.repr_injective (String.toList_inj.1 same)

end StatementId

end DeltaSlice

/-!
Reading texts back. A text that is followed by something else can be read if the whole tells where it
ends; what has been read so far is taken off, and reading goes on with the rest.
-/

namespace DeltaSlice

namespace Reading

variable {α β : Type}

/-- A word ends at the first character that belongs to no word. -/
theorem span_eq {p : Char → Prop} {a b s t : List Char} (ha : ∀ c ∈ a, p c) (hb : ∀ c ∈ b, p c)
    (hs : ∀ c ∈ s.head?, ¬ p c) (ht : ∀ c ∈ t.head?, ¬ p c) (h : a ++ s = b ++ t) :
    a = b ∧ s = t := by
  induction a generalizing b with
  | nil =>
      cases b with
      | nil => exact ⟨rfl, h⟩
      | cons c b =>
          have first : s = c :: (b ++ t) := h
          exact absurd (hb c (by simp)) (hs c (by simp [first]))
  | cons c a ih =>
      cases b with
      | nil =>
          have first : c :: (a ++ s) = t := h
          exact absurd (ha c (by simp)) (ht c (by simp [← first]))
      | cons d b =>
          obtain ⟨rfl, rest⟩ := List.cons.inj h
          obtain ⟨rfl, rfl⟩ := ih (fun x hx => ha x (by simp [hx])) (fun x hx => hb x (by simp [hx])) rest
          exact ⟨rfl, rfl⟩

/-- Items written one after the other, up to something that is no item. -/
theorem flatMap_eq {f : α → List Char} {view : α → β} {ok : α → Prop} {stop tail : List Char → Prop}
    (item : ∀ a b s t, ok a → ok b → stop s → stop t → f a ++ s = f b ++ t → view a = view b ∧ s = t)
    (apart : ∀ a s t, ok a → tail t → f a ++ s ≠ t) (more : ∀ a s, ok a → stop (f a ++ s))
    (last : ∀ s, tail s → stop s) {l l' : List α} {s t : List Char} (hl : ∀ a ∈ l, ok a)
    (hl' : ∀ a ∈ l', ok a) (hs : tail s) (ht : tail t) (h : l.flatMap f ++ s = l'.flatMap f ++ t) :
    l.map view = l'.map view ∧ s = t := by
  have stops : ∀ {l : List α} {s : List Char}, (∀ a ∈ l, ok a) → tail s → stop (l.flatMap f ++ s) := by
    intro l s hl hs
    cases l with
    | nil => exact last s hs
    | cons a l =>
        rw [List.flatMap_cons, List.append_assoc]
        exact more a _ (hl a (by simp))
  induction l generalizing l' with
  | nil =>
      cases l' with
      | nil => exact ⟨rfl, h⟩
      | cons b l' =>
          rw [List.flatMap_cons, List.append_assoc] at h
          exact absurd h.symm (apart b _ s (hl' b (by simp)) hs)
  | cons a l ih =>
      cases l' with
      | nil =>
          rw [List.flatMap_cons, List.append_assoc] at h
          exact absurd h (apart a _ t (hl a (by simp)) ht)
      | cons b l' =>
          have rest : ∀ a ∈ l, ok a := fun a ha => hl a (by simp [ha])
          have rest' : ∀ a ∈ l', ok a := fun a ha => hl' a (by simp [ha])
          rw [List.flatMap_cons, List.flatMap_cons, List.append_assoc, List.append_assoc] at h
          obtain ⟨first, h⟩ := item a b _ _ (hl a (by simp)) (hl' b (by simp)) (stops rest hs)
            (stops rest' ht) h
          obtain ⟨others, ending⟩ := ih rest rest' h
          exact ⟨by simp [first, others], ending⟩

theorem intercalate_cons (sep a : List Char) (l : List (List Char)) :
    sep.intercalate (a :: l) = a ++ l.flatMap (sep ++ ·) := by
  induction l generalizing a with
  | nil => simp
  | cons b l ih => simp only [List.intercalate_cons_cons, ih, List.flatMap_cons, List.append_assoc]

/-- Items divided by a separator, up to a closing character; there is a first one. -/
theorem intercalate_cons_eq {d close : Char} {sep : List Char} (hd : d ≠ close) {f : α → List Char}
    {view : α → β} {ok : α → Prop} {stop : List Char → Prop}
    (item : ∀ a b s t, ok a → ok b → stop s → stop t → f a ++ s = f b ++ t → view a = view b ∧ s = t)
    (more : ∀ s, stop (d :: s)) (last : ∀ s, stop (close :: s)) {a b : α} {l l' : List α}
    {s t : List Char} (hl : ∀ x ∈ a :: l, ok x) (hl' : ∀ x ∈ b :: l', ok x)
    (h : (d :: sep).intercalate ((a :: l).map f) ++ close :: s =
      (d :: sep).intercalate ((b :: l').map f) ++ close :: t) :
    (a :: l).map view = (b :: l').map view ∧ s = t := by
  have stops : ∀ (l : List α) (s : List Char),
      stop ((l.map f).flatMap ((d :: sep) ++ ·) ++ close :: s) := by
    intro l s
    cases l with
    | nil => exact last s
    | cons a l => exact more _
  have next : ∀ a b u v, ok a → ok b → stop u → stop v →
      d :: sep ++ f a ++ u = d :: sep ++ f b ++ v → view a = view b ∧ u = v := by
    intro a b u v ha hb hu hv heq
    rw [List.append_assoc, List.append_assoc] at heq
    exact item a b u v ha hb hu hv (List.append_cancel_left heq)
  have apart : ∀ a u v, ok a → v.head? = some close → d :: sep ++ f a ++ u ≠ v := by
    intro a u v _ hv heq
    rw [← heq] at hv
    exact hd (Option.some.inj hv)
  have closes : ∀ u : List Char, u.head? = some close → stop u := by
    intro u hu
    obtain ⟨v, rfl⟩ := List.head?_eq_some_iff.1 hu
    exact last v
  rw [List.map_cons, List.map_cons, intercalate_cons, intercalate_cons, List.append_assoc,
    List.append_assoc] at h
  obtain ⟨first, h⟩ := item a b _ _ (hl a (by simp)) (hl' b (by simp)) (stops l s) (stops l' t) h
  rw [List.flatMap_map, List.flatMap_map] at h
  obtain ⟨others, ending⟩ := flatMap_eq next apart (fun a u _ => more _) closes
    (fun a ha => hl a (by simp [ha])) (fun a ha => hl' a (by simp [ha])) rfl rfl h
  exact ⟨by simp [first, others], (List.cons.inj ending).2⟩

/-- Any number of items, none of which starts like the end. -/
theorem intercalate_eq {d close : Char} {sep : List Char} (hd : d ≠ close) {f : α → List Char}
    {view : α → β} {ok : α → Prop} {stop : List Char → Prop}
    (item : ∀ a b s t, ok a → ok b → stop s → stop t → f a ++ s = f b ++ t → view a = view b ∧ s = t)
    (begins : ∀ a, ok a → ∃ c r, f a = c :: r ∧ c ≠ close) (more : ∀ s, stop (d :: s))
    (last : ∀ s, stop (close :: s)) {l l' : List α} {s t : List Char} (hl : ∀ a ∈ l, ok a)
    (hl' : ∀ a ∈ l', ok a) (h : (d :: sep).intercalate (l.map f) ++ close :: s =
      (d :: sep).intercalate (l'.map f) ++ close :: t) : l.map view = l'.map view ∧ s = t := by
  have notClose : ∀ a u v, ok a → f a ++ u ≠ close :: v := by
    intro a u v ha heq
    obtain ⟨c, r, hc, hne⟩ := begins a ha
    rw [hc] at heq
    exact hne (List.cons.inj heq).1
  cases l with
  | nil =>
      cases l' with
      | nil => exact ⟨rfl, by simpa using h⟩
      | cons b l' =>
          rw [List.map_cons, intercalate_cons, List.append_assoc] at h
          exact absurd h.symm (notClose b _ s (hl' b (by simp)))
  | cons a l =>
      cases l' with
      | nil =>
          rw [List.map_cons, intercalate_cons, List.append_assoc] at h
          exact absurd h (notClose a _ t (hl a (by simp)))
      | cons b l' => exact intercalate_cons_eq hd item more last hl hl' h

/-- A written number ends where no digit follows. -/
theorem toString_eq {i j : Int} {s t : List Char} (hs : ∀ c ∈ s.head?, c ≠ '-' ∧ c.isDigit = false)
    (ht : ∀ c ∈ t.head?, c ≠ '-' ∧ c.isDigit = false)
    (h : (toString i).toList ++ s = (toString j).toList ++ t) : i = j ∧ s = t := by
  have part : ∀ {u : List Char}, (∀ c ∈ u.head?, c ≠ '-' ∧ c.isDigit = false) →
      ∀ c ∈ u.head?, ¬ (c = '-' ∨ c.isDigit = true) := by
    rintro u hu c hc (rfl | hdigit)
    · exact (hu _ hc).1 rfl
    · rw [(hu c hc).2] at hdigit
      cases hdigit
  obtain ⟨same, rest⟩ := span_eq (fun _ => isDigit_of_mem_toString) (fun _ => isDigit_of_mem_toString)
    (part hs) (part ht) h
  exact ⟨Int.repr_injective (String.toList_inj.1 same), rest⟩

theorem toString_begins (i : Int) : ∃ c r, (toString i).toList = c :: r ∧ c ≠ ']' := by
  have written : i.repr ≠ "" := by
    rw [Int.repr_eq_if]
    split
    · exact Nat.repr_ne_empty
    · simp
  cases hi : (toString i).toList with
  | nil => exact absurd (String.toList_eq_nil_iff.1 hi) written
  | cons c r =>
      refine ⟨c, r, rfl, fun hc => ?_⟩
      have : ']' ∈ (toString i).toList := by rw [hi, hc]; exact List.mem_cons_self
      exact notMem_toString (by decide) i this

end Reading

/-- No two members share a text, and no text holds any of the given characters. -/
structure Readable {α : Type} (text : α → String) (avoid : List Char) (s : Set α) : Prop where
  inj : Set.InjOn text s
  avoids : ∀ a ∈ s, ∀ c ∈ (text a).toList, c ∉ avoid

namespace Readable

variable {avoid : List Char} {s t : List Char}

/-- A text ends at the first character that it avoids. -/
theorem read {α : Type} {text : α → String} {m : Set α} {a b : α} (h : Readable text avoid m)
    (ha : a ∈ m) (hb : b ∈ m) (hs : ∀ c ∈ s.head?, c ∈ avoid) (ht : ∀ c ∈ t.head?, c ∈ avoid)
    (heq : (text a).toList ++ s = (text b).toList ++ t) : a = b ∧ s = t := by
  obtain ⟨same, rest⟩ := Reading.span_eq (h.avoids a ha) (h.avoids b hb)
    (fun c hc => not_not.2 (hs c hc)) (fun c hc => not_not.2 (ht c hc)) heq
  exact ⟨h.inj ha hb (String.toList_inj.1 same), rest⟩

/-- The routine of a location is read up to the bracket, its path up to the bracket that closes. -/
theorem location {rs : Set Routine} (h : Readable Routine.text avoid rs) (opens : '[' ∈ avoid)
    {l l' : Location} (hl : l.routine ∈ rs) (hl' : l'.routine ∈ rs)
    (heq : l.text.toList ++ s = l'.text.toList ++ t) : l = l' ∧ s = t := by
  obtain ⟨r, path⟩ := l
  obtain ⟨r', path'⟩ := l'
  simp only [Location.text, String.toList_append, String.toList_intercalate, List.map_map,
    List.append_assoc] at heq
  obtain ⟨same, heq⟩ := h.read hl hl' (by simp [opens]) (by simp [opens]) heq
  have item : ∀ (i j : Int) (u v : List Char), True → True →
      (∀ c ∈ u.head?, c ≠ '-' ∧ c.isDigit = false) → (∀ c ∈ v.head?, c ≠ '-' ∧ c.isDigit = false) →
      (String.toList ∘ toString) i ++ u = (String.toList ∘ toString) j ++ v → id i = id j ∧ u = v :=
    fun i j u v _ _ hu hv => Reading.toString_eq hu hv
  obtain ⟨indices, rest⟩ := Reading.intercalate_eq (d := ',') (by decide) item
    (fun i _ => Reading.toString_begins i) (by simp) (by simp) (by simp) (by simp)
    (List.append_cancel_left heq)
  have reversed : path.reverse = path'.reverse := by simpa using indices
  exact ⟨by rw [Location.mk.injEq]; exact ⟨same, List.reverse_inj.1 reversed⟩, rest⟩

end Readable

/-- No two members share a text, and each has one, without any of the given characters. -/
structure Spelled {α : Type} (text : α → String) (avoid : List Char) (s : Set α) : Prop where
  inj : Set.InjOn text s
  nonempty : ∀ a ∈ s, text a ≠ ""
  avoids : ∀ a ∈ s, ∀ c ∈ (text a).toList, c ∉ avoid

namespace Spelled

variable {α : Type} {text : α → String} {avoid : List Char} {m : Set α} {a b : α} {s t : List Char}

theorem readable (h : Spelled text avoid m) : Readable text avoid m := ⟨h.inj, h.avoids⟩

/-- A text ends at the first character that it avoids. -/
theorem read (h : Spelled text avoid m) (ha : a ∈ m) (hb : b ∈ m) (hs : ∀ c ∈ s.head?, c ∈ avoid)
    (ht : ∀ c ∈ t.head?, c ∈ avoid) (heq : (text a).toList ++ s = (text b).toList ++ t) :
    a = b ∧ s = t := h.readable.read ha hb hs ht heq

theorem begins (h : Spelled text avoid m) (ha : a ∈ m) {d : Char} (hd : d ∈ avoid) :
    ∃ c r, (text a).toList = c :: r ∧ c ≠ d := by
  cases hchars : (text a).toList with
  | nil => exact absurd (by simpa using hchars) (h.nonempty a ha)
  | cons c r =>
      refine ⟨c, r, rfl, ?_⟩
      rintro rfl
      exact h.avoids a ha c (by simp [hchars]) hd

end Spelled

end DeltaSlice
