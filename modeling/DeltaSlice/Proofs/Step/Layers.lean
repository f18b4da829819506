import DeltaSlice.Proofs.Coarse.Settled
import DeltaSlice.Proofs.Step.Regions

/-!
Layers of conditions. In the layer of a routine, conditions stand in the order of the control structures that they
belong to, those of inner structures being newer than those of outer ones; the conditions of cases belong to their
switch. So where a structure is left, what is dropped with it is all that belongs to it.
-/

namespace DeltaSlice

namespace ConditionLayer

variable {l : ConditionLayer} {n : Nat}

/-- The nodes that have conditions, the newest first. -/
def nodes (l : ConditionLayer) : List Nat := l.map (·.1)

theorem nodes_add (v : Value) : (l.add n v).nodes = if n ∈ l.nodes then l.nodes else n :: l.nodes := by
  have known : l.any (·.1 = n) = true ↔ n ∈ l.nodes := by simp [nodes]
  unfold add
  by_cases h : n ∈ l.nodes
  · rw [if_pos (known.2 h), if_pos h, nodes, List.map_map]
    refine List.map_congr_left fun c _ => ?_
    dsimp only [Function.comp]
    split <;> rfl
  · rw [if_neg (mt known.1 h), if_neg h]
    rfl

theorem nodes_dropAbove : (l.dropAbove n).nodes = l.nodes.dropWhile (· != n) := by
  induction l with
  | nil => rfl
  | cons c l ih =>
      unfold dropAbove
      by_cases h : c.1 = n
      · simp [h, nodes]
      · rw [if_neg h, ih, nodes, nodes, List.map_cons, List.dropWhile_cons_of_pos (by simpa using h)]

theorem nodes_dropThrough : (l.dropThrough n).nodes = (l.nodes.dropWhile (· != n)).tail := by
  induction l with
  | nil => rfl
  | cons c l ih =>
      unfold dropThrough
      by_cases h : c.1 = n
      · simp [h, nodes]
      · rw [if_neg h, ih, nodes, nodes, List.map_cons, List.dropWhile_cons_of_pos (by simpa using h)]

end ConditionLayer

namespace Expr

/-- The expression may note conditions of its own. -/
def isControl : Expr → Bool
  | branch .. | whileLoop .. | doLoop .. | forLoop .. | switch .. => true
  | _ => false

/-- A control structure that comes from its child `c` may have a condition. A branch has none while its condition is
evaluated. -/
def Notes (e : Expr) (c : Int) : Prop :=
  match e with
  | branch .. => 1 ≤ c
  | whileLoop .. | doLoop .. | forLoop .. | switch .. => True
  | _ => False

/-- The node is that of a control structure, or that of one of the cases of a switch that were come to. -/
inductive Controls (e : Expr) (c : Int) : Nat → Prop
  | self : e.Notes c → e.Controls c e.id
  | case {k : Int} {arm : Expr} : e.isSwitch = true → 0 < k → k ≤ c → elementAt? e.children k = some arm →
      e.Controls c arm.id

variable {e : Expr} {c c' : Int} {n : Nat}

theorem Notes.mono (h : e.Notes c) (le : c ≤ c') : e.Notes c' := by
  cases e with
  | branch => exact Int.le_trans h le
  | _ => exact h

/-- Loops and switches have a condition from first to last. -/
theorem notes_of_loop (loop : e.loopLabel?.isSome = true) (c : Int) : e.Notes c := by
  cases e with
  | whileLoop | doLoop | forLoop => trivial
  | _ => cases loop

theorem notes_of_switch (inside : e.isSwitch = true) (c : Int) : e.Notes c := by
  cases e with
  | switch => trivial
  | _ => cases inside

theorem Controls.mono (h : e.Controls c n) (le : c ≤ c') : e.Controls c' n := by
  cases h with
  | self notes => exact .self (notes.mono le)
  | case hswitch first last harm => exact .case hswitch first (last.trans le) harm

/-- To other expressions belongs nothing. -/
theorem not_controls (plain : e.isControl = false) (n : Nat) : ¬ e.Controls c n := by
  intro controls
  cases controls with
  | self notes => cases e <;> first | cases notes; done | cases plain
  | case hswitch => cases e <;> first | cases hswitch; done | cases plain

/-- To a loop belongs its own condition. -/
theorem Controls.of_loop (h : e.Controls c n) (loop : e.loopLabel?.isSome = true) : n = e.id := by
  cases h with
  | self => rfl
  | case hswitch => cases e <;> first | cases hswitch; done | cases loop

/-- To a switch that comes to its tag belongs its own condition at most. -/
theorem Controls.of_low (h : e.Controls c n) (low : c ≤ 0) : n = e.id := by
  cases h with
  | self => rfl
  | case _ first last => omega

theorem Controls.round (h : e.Controls c n) (loop : e.loopLabel?.isSome = true) (c' : Int) : e.Controls c' n :=
  h.of_loop loop ▸ .self (notes_of_loop loop c')

/-- What of a layer belongs to a control structure. Its own condition is the oldest, for those of cases come later. -/
structure Owns (e : Expr) (c : Int) (own : List Nat) : Prop where
  controls : ∀ n ∈ own, e.Controls c n
  oldest : ∀ newer older, own = newer ++ e.id :: older → older = []

namespace Owns

variable {own own' rest : List Nat}

theorem nil : e.Owns c [] := ⟨by simp, by simp⟩

theorem eq_nil (h : e.Owns c own) (plain : ∀ n, ¬ e.Controls c n) : own = [] :=
  List.eq_nil_iff_forall_not_mem.2 fun n hn => plain n (h.controls n hn)

theorem suffix (h : e.Owns c own) (newest : own' <:+ own) : e.Owns c own' := by
  refine ⟨fun n hn => h.controls n (newest.subset hn), fun newer older split => ?_⟩
  obtain ⟨before, rfl⟩ := newest
  exact h.oldest (before ++ newer) older (by rw [split, List.append_assoc])

/-- What is left behind all that belongs to the structure. -/
theorem through (h : e.Owns c own) (rest : List Nat) : ((own ++ rest).dropWhile (· != e.id)).tail <:+ rest := by
  by_cases hn : e.id ∈ own
  · obtain ⟨newer, older, rfl, fresh⟩ := List.eq_append_cons_of_mem hn
    obtain rfl := h.oldest newer older rfl
    have others : ∀ m ∈ newer, (m != e.id) = true := fun m hm => bne_iff_ne.2 fun same => fresh (same ▸ hm)
    rw [List.append_assoc, List.dropWhile_append_of_pos others]
    simp
  · have others : ∀ m ∈ own, (m != e.id) = true := fun m hm => bne_iff_ne.2 fun same => hn (same ▸ hm)
    rw [List.dropWhile_append_of_pos others]
    exact (List.tail_suffix _).trans (List.dropWhile_suffix _)

end Owns

end Expr

/-- The node is that of a control structure at a path, where it comes from child `c`, or of one around it. -/
inductive System.Encloses (sys : System) (r : Routine) : Path → Int → Nat → Prop
  | here {i c : Int} {up : Path} {e : Expr} {n : Nat} : sys.at? ⟨r, i :: up⟩ = some e → e.Controls c n →
      sys.Encloses r (i :: up) c n
  | above {i c : Int} {up : Path} {n : Nat} : sys.Encloses r up i n → sys.Encloses r (i :: up) c n

/-- The nodes of a layer are in the order of the control structures at a path and around it, above the last ones of
those that were there before the routine began. -/
def System.Around (sys : System) (r : Routine) (base : List Nat) : Path → Int → List Nat → Prop
  | [], _, l => l <:+ base
  | i :: up, c, l => ∃ own rest, l = own ++ rest ∧
      (own = [] ∨ ∃ e, sys.at? ⟨r, i :: up⟩ = some e ∧ e.Owns c own) ∧ sys.Around r base up i rest

namespace System

variable {sys : System} {r : Routine} {base l l' : List Nat} {path up : Path} {i j c c' : Int} {e : Expr} {n : Nat}

/-- In a list of nodes that are told apart, two nodes of one number are the same. -/
theorem elementAt?_inj {es : List Expr} {x y : Expr} (distinct : (Expr.numbers es).Nodup)
    (hx : elementAt? es i = some x) (hy : elementAt? es j = some y) (same : x.id = y.id) : i = j := by
  have ids : (es.map Expr.id).Sublist (Expr.numbers es) := by
    clear distinct hx hy
    induction es with
    | nil => exact .slnil
    | cons e es ih =>
        rw [Expr.numbers_cons]
        exact (ih.trans (List.sublist_append_right _ _)).cons_cons _
  have low := (elementAt?_lt hx).1
  have low' := (elementAt?_lt hy).1
  rw [elementAt?, if_neg (by omega)] at hx hy
  obtain ⟨high, -⟩ := List.getElem?_eq_some_iff.1 hx
  have := (List.getElem?_inj (by rwa [List.length_map]) (distinct.sublist ids)).1
    (show (es.map Expr.id)[i.toNat]? = (es.map Expr.id)[j.toNat]? by
      rw [List.getElem?_map, List.getElem?_map, hx, hy, Option.map_some, Option.map_some, same])
  omega

/-- So it is below them. -/
theorem resolve?_inj {code : List Expr} (distinct : (Expr.numbers code).Nodup) {p q : Path} {x y : Expr}
    (hx : Path.resolve? code p = some x) (hy : Path.resolve? code q = some y) (same : x.id = y.id) : p = q := by
  induction p generalizing q x y with
  | nil => cases hx
  | cons i up ih =>
      cases q with
      | nil => cases hy
      | cons j up' =>
          -- What is above them has one number, too.
          have above : Path.resolve? code up = Path.resolve? code up' := by
            rw [← Path.find?_links distinct hx, ← Path.find?_links distinct hy, same]
          rcases Path.resolve?_cases hx with ⟨rfl, -⟩ | ⟨e, he, -⟩
          · rcases Path.resolve?_cases hy with ⟨rfl, -⟩ | ⟨e', he', -⟩
            · rw [elementAt?_inj distinct hx hy same]
            · rw [he'] at above
              cases above
          · obtain rfl := ih he (above.symm.trans he) rfl
            have children := (distinct.sublist (Expr.linksAll_none_sublist code)).sublist
              ((Path.children_sublist he).map (·.1))
            rw [Expr.linksAll_numbers] at children
            rw [elementAt?_inj children ((Path.resolve?_cons he).symm.trans hx) ((Path.resolve?_cons he).symm.trans hy)
              same]

theorem Distinct.path_inj (distinct : sys.Distinct) {p q : Path} {x y : Expr} (hx : sys.at? ⟨r, p⟩ = some x)
    (hy : sys.at? ⟨r, q⟩ = some y) (same : x.id = y.id) : p = q := by
  obtain ⟨m, code, rfl, hcode, hx⟩ := at?_eq_some hx
  obtain ⟨m', code', hm, hcode', hy⟩ := at?_eq_some hy
  obtain rfl := Routine.member.inj hm
  obtain rfl : code = code' := Option.some.inj (hcode.symm.trans hcode')
  exact resolve?_inj (distinct code (List.mem_of_getElem? hcode)) hx hy same

namespace Around

theorem cases_at (h : sys.Around r base (i :: up) c l) (he : sys.at? ⟨r, i :: up⟩ = some e) :
    ∃ own rest, l = own ++ rest ∧ e.Owns c own ∧ sys.Around r base up i rest := by
  obtain ⟨own, rest, rfl, none | ⟨e', he', owns⟩, above⟩ := h
  · exact ⟨own, rest, rfl, none ▸ .nil, above⟩
  · obtain rfl := Option.some.inj (he'.symm.trans he)
    exact ⟨own, rest, rfl, owns, above⟩

theorem suffix (h : sys.Around r base path c l) (newest : l' <:+ l) : sys.Around r base path c l' := by
  induction path generalizing c l l' with
  | nil => exact newest.trans h
  | cons i up ih =>
      obtain ⟨own, rest, rfl, owns, above⟩ := h
      rcases List.suffix_or_suffix_of_suffix newest (List.suffix_append own rest) with outer | ⟨own', rfl⟩
      · exact ⟨[], l', rfl, .inl rfl, ih above outer⟩
      · have inner := List.suffix_append_self_iff.1 newest
        refine ⟨own', rest, rfl, ?_, above⟩
        rcases owns with rfl | ⟨e, he, owns⟩
        · exact .inl (List.suffix_nil.1 inner)
        · exact .inr ⟨e, he, owns.suffix inner⟩

theorem nil : sys.Around r base path c [] := by
  induction path generalizing c with
  | nil => exact List.nil_suffix
  | cons i up ih => exact ⟨[], [], rfl, .inl rfl, ih⟩

/-- What is in the layer belongs to something around, or was there before. -/
theorem encloses (h : sys.Around r base path c l) (hn : n ∈ l) : n ∈ base ∨ sys.Encloses r path c n := by
  induction path generalizing c l with
  | nil => exact .inl (h.subset hn)
  | cons i up ih =>
      obtain ⟨own, rest, rfl, owns, above⟩ := h
      rcases List.mem_append.1 hn with hn | hn
      · rcases owns with rfl | ⟨e, he, owns⟩
        · cases hn
        · exact .inr (.here he (owns.controls n hn))
      · exact (ih above hn).imp_right .above

theorem mono (h : sys.Around r base path c l) (le : c ≤ c') : sys.Around r base path c' l := by
  cases path with
  | nil => exact h
  | cons i up =>
      obtain ⟨own, rest, rfl, owns, above⟩ := h
      refine ⟨own, rest, rfl, owns.imp_right fun ⟨e, he, owns⟩ => ⟨e, he, ?_, owns.oldest⟩, above⟩
      exact fun n hn => (owns.controls n hn).mono le

/-- A loop goes on with any of its children. -/
theorem round (h : sys.Around r base path c l) (he : sys.at? ⟨r, path⟩ = some e)
    (loop : e.loopLabel?.isSome = true) (c' : Int) : sys.Around r base path c' l := by
  cases path with
  | nil => cases he
  | cons i up =>
      obtain ⟨own, rest, rfl, owns, above⟩ := h.cases_at he
      exact ⟨own, rest, rfl, .inr ⟨e, he, fun n hn => (owns.controls n hn).round loop c', owns.oldest⟩, above⟩

/-- Into a child. -/
theorem enter (h : sys.Around r base path j l) : sys.Around r base (j :: path) (-1) l :=
  ⟨[], l, rfl, .inl rfl, h⟩

/-- A control structure notes its condition, as its first one. -/
theorem note (h : sys.Around r base path c l) (he : sys.at? ⟨r, path⟩ = some e)
    (only : ∀ n, e.Controls c n → n = e.id) (notes : e.Notes j) :
    sys.Around r base path j (if e.id ∈ l then l else e.id :: l) := by
  cases path with
  | nil => cases he
  | cons i up =>
      obtain ⟨own, rest, rfl, owns, above⟩ := h.cases_at he
      split
      · refine ⟨own, rest, rfl, .inr ⟨e, he, fun n hn => ?_, owns.oldest⟩, above⟩
        rw [only n (owns.controls n hn)]
        exact .self notes
      · rename_i fresh
        obtain rfl : own = [] := by
          refine List.eq_nil_iff_forall_not_mem.2 fun n hn => fresh (List.mem_append_left _ ?_)
          exact only n (owns.controls n hn) ▸ hn
        refine ⟨[e.id], rest, rfl, .inr ⟨e, he, fun n hn => ?_, fun newer older split => ?_⟩, above⟩
        · rw [List.mem_singleton.1 hn]
          exact .self notes
        · cases newer with
          | nil => exact (List.cons.inj split).2.symm
          | cons x newer => simp at split

/-- A case notes its condition for the switch. -/
theorem note_case (h : sys.Around r base (j :: path) c l) (distinct : sys.Distinct)
    (he : sys.at? ⟨r, j :: path⟩ = some e) (plain : e.isControl = false) {q : Expr}
    (hq : sys.at? ⟨r, path⟩ = some q) (inside : q.isSwitch = true) (behind : 0 < j) :
    sys.Around r base (j :: path) c (if e.id ∈ l then l else e.id :: l) := by
  split
  · exact h
  · cases path with
    | nil => cases hq
    | cons i up =>
        obtain ⟨own, rest, rfl, owns, above⟩ := h.cases_at he
        obtain rfl := owns.eq_nil (Expr.not_controls plain)
        obtain ⟨own, rest, rfl, owns, above⟩ := above.cases_at hq
        refine ⟨[], _, rfl, .inl rfl, e.id :: own, rest, rfl, .inr ⟨q, hq, fun n hn => ?_, fun newer older split => ?_⟩,
          above⟩
        · rcases List.mem_cons.1 hn with rfl | hn
          · exact .case inside behind (Int.le_refl _) ((at?_cons hq).symm.trans he)
          · exact owns.controls n hn
        · cases newer with
          | nil =>
              have apart := distinct.path_inj he hq (List.cons.inj split).1
              simp at apart
          | cons x newer => exact owns.oldest newer older (List.cons.inj split).2

/-- A control structure is left with all that belongs to it. -/
theorem leave (h : sys.Around r base (i :: up) c l) (he : sys.at? ⟨r, i :: up⟩ = some e) :
    sys.Around r base up i (l.dropWhile (· != e.id)).tail := by
  obtain ⟨own, rest, rfl, owns, above⟩ := h.cases_at he
  exact above.suffix (owns.through rest)

/-- Where nothing belongs to an expression, nothing is dropped with it. -/
theorem pass (h : sys.Around r base (i :: up) c l) (he : sys.at? ⟨r, i :: up⟩ = some e)
    (plain : ∀ n, ¬ e.Controls c n) : sys.Around r base up i l := by
  obtain ⟨own, rest, rfl, owns, above⟩ := h.cases_at he
  obtain rfl := owns.eq_nil plain
  exact above

/-- An expression to which nothing belongs goes on with any of its children. -/
theorem free (h : sys.Around r base path c l) (he : sys.at? ⟨r, path⟩ = some e) (plain : e.isControl = false)
    (c' : Int) : sys.Around r base path c' l := by
  cases path with
  | nil => cases he
  | cons i up => exact ⟨[], l, rfl, .inl rfl, h.pass he (Expr.not_controls plain)⟩

/-- What belongs to an inner structure is dropped before all that belongs to an outer one. -/
theorem drop_inner (distinct : sys.Distinct) {own rest : List Nat} {k : Nat} {target : Expr}
    (owns : own = [] ∨ ∃ e, sys.at? ⟨r, i :: up⟩ = some e ∧ e.Owns c own)
    (htarget : sys.at? ⟨r, up.drop k⟩ = some target) :
    (own ++ rest).dropWhile (· != target.id) = rest.dropWhile (· != target.id) := by
  refine List.dropWhile_append_of_pos fun n hn => ?_
  rcases owns with rfl | ⟨e, he, owns⟩
  · cases hn
  · have deeper : ∀ {p x}, sys.at? ⟨r, p⟩ = some x → up.length < p.length → x.id ≠ target.id := by
      intro p x hx longer same
      have path := distinct.path_inj hx htarget same
      rw [path, List.length_drop] at longer
      omega
    have other : n ≠ target.id := by
      cases owns.controls n hn with
      | self => exact deeper he (by simp)
      | @case k arm _ _ _ harm => exact deeper (p := k :: i :: up) ((at?_cons he).trans harm) (by simp)
    simpa using other

/-- An exit leaves its target with all that belongs to it. -/
theorem exit (h : sys.Around r base path c l) (distinct : sys.Distinct) {m : Nat} {target : Expr}
    (htarget : sys.at? ⟨r, path.drop m⟩ = some target) (hj : path[m]? = some j) :
    sys.Around r base (path.drop (m + 1)) j (l.dropWhile (· != target.id)).tail := by
  induction m generalizing path c l with
  | zero =>
      cases path with
      | nil => cases hj
      | cons i up =>
          obtain rfl := Option.some.inj hj
          exact h.leave htarget
  | succ m ih =>
      cases path with
      | nil => cases hj
      | cons i up =>
          obtain ⟨own, rest, rfl, owns, above⟩ := h
          rw [drop_inner distinct owns htarget]
          exact ih above htarget hj

/-- The next round of a loop keeps what belongs to the loop. -/
theorem next (h : sys.Around r base path c l) (distinct : sys.Distinct) {m : Nat} {target : Expr}
    (htarget : sys.at? ⟨r, path.drop m⟩ = some target) (loop : target.loopLabel?.isSome = true) (j : Int) :
    sys.Around r base (path.drop m) j (l.dropWhile (· != target.id)) := by
  induction m generalizing path c l with
  | zero => exact (h.suffix (List.dropWhile_suffix _)).round htarget loop j
  | succ m ih =>
      cases path with
      | nil => cases htarget
      | cons i up =>
          obtain ⟨own, rest, rfl, owns, above⟩ := h
          rw [drop_inner distinct owns htarget]
          exact ih above htarget

end Around

end System

end DeltaSlice
