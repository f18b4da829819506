import DeltaSlice.Proofs.Triggers.Steps

/-!
What dependence graphs tell about global variables. A graph defines a global variable exactly if something
wrote it, and it has an edge from the input of one only if something read it. Of all that an observer does to a
graph, only the accesses of small steps matter for that; arguments, results and triggers are no globals.
-/

namespace DeltaSlice

namespace Pdg

variable {g h k : Pdg} {v : Variable} {rs ws : List Variable}

/-- A definition of the variable reaches. -/
def Writes (g : Pdg) (v : Variable) : Prop := ∃ a, .reaches v (some a) ∈ g.facts

/-- A statement depends on what the variable was before the transition. -/
def Reads (g : Pdg) (v : Variable) : Prop := ∃ key, .edge .data (.input v) (.statement key) ∈ g.facts

/-- As far as global variables are concerned, `h` comes from `g` by writes of `ws` and reads among `rs`. -/
structure Touches (rs ws : List Variable) (g h : Pdg) : Prop where
  writes : ∀ {o d}, h.Writes (.global o d) ↔ g.Writes (.global o d) ∨ .global o d ∈ ws
  reads : ∀ {o d}, h.Reads (.global o d) → g.Reads (.global o d) ∨ .global o d ∈ rs

namespace Touches

theorem refl (g : Pdg) : Touches [] [] g g := ⟨by simp, .inl⟩

theorem trans (first : Touches [] [] g h) (next : Touches rs ws h k) : Touches rs ws g k where
  writes := by simp [next.writes, first.writes]
  reads hk := (next.reads hk).imp_left fun hh => (first.reads hh).resolve_right (by simp)

/-- What is new tells nothing about global variables. -/
theorem of_facts
    (reaches : ∀ {o d a}, .reaches (.global o d) (some a) ∈ h.facts ↔ .reaches (.global o d) (some a) ∈ g.facts)
    (edges : ∀ {o d key}, .edge .data (.input (.global o d)) (.statement key) ∈ h.facts →
      .edge .data (.input (.global o d)) (.statement key) ∈ g.facts) : Touches [] [] g h where
  writes := (exists_congr fun _ => reaches).trans (or_iff_left List.not_mem_nil).symm
  reads hh := .inl (hh.imp fun _ => edges)

theorem of_grows {A : Set Fact} (hg : g.Valid) (grows : Grows g h A)
    (apart : ∀ o d key, .edge .data (.input (.global o d)) (.statement key) ∉ A) : Touches [] [] g h := by
  refine of_facts (grows.reaches_iff hg) fun hh => ?_
  rw [grows.facts] at hh
  exact hh.resolve_right (apart _ _ _)

end Touches

/-- Where alternatives are merged, either of them may have read or written. -/
theorem compose_writes (hg : g.Unfinished) (hh : h.Unfinished) (hge : g.entry.isSome) (hhe : h.entry.isSome)
    (composed : g.compose h = .ok k) : k.Unfinished ∧ k.entry.isSome ∧
      (∀ v, k.Writes v ↔ g.Writes v ∨ h.Writes v) ∧ ∀ v, k.Reads v ↔ g.Reads v ∨ h.Reads v := by
  obtain ⟨valid, entry, facts, -⟩ := compose_facts hg.valid hh.valid hge hhe composed
  refine ⟨⟨valid, fun v => ?_, fun v a hf => ?_⟩, entry ▸ hge, fun v => ?_, fun v => ?_⟩
  · rw [facts, Set.mem_union]
    exact not_or.2 ⟨hg.unclosed v, hh.unclosed v⟩
  · rw [facts, Set.mem_union] at hf
    exact hf.elim (hg.statements v a) (hh.statements v a)
  · simp only [Writes, facts, Set.mem_union, exists_or]
  · simp only [Reads, facts, Set.mem_union, exists_or]

theorem lists_iff_writes (hg : g.Valid) : g.Lists v ↔ g.Writes v := by
  constructor
  · intro listed
    obtain ⟨d, found⟩ := Option.isSome_iff_exists.1 listed
    obtain ⟨filled, -, inside⟩ := hg.definitions v d (Table.mem_of_get? found)
    obtain ⟨n, hn⟩ := List.exists_mem_of_ne_nil _ filled
    obtain ⟨a, ha⟩ := idOf?_isSome.2 (inside n hn)
    exact ⟨a, d, found, n, hn, ha⟩
  · rintro ⟨a, d, found, -⟩
    exact Option.isSome_iff_exists.2 ⟨d, found⟩

/-- A completed graph has an output node for each variable that is written, and the edges that read. -/
theorem finalize_touches (hg : g.Unfinished) (closes : g.finalize = .ok h) :
    (h.has (.output v) = true ↔ g.Writes v) ∧
      ∀ {key}, h.edge? .data (.input v) (.statement key) = .ok true → g.Reads v := by
  obtain ⟨valid, edges⟩ := finalize_valid_edges hg.valid closes
  refine ⟨?_, fun reads => ?_⟩
  · obtain ⟨c, grows, rfl⟩ := finalize_grows hg.valid closes
    have perm := sortByText_perm (fun (r : Variable × Definitions) => r.1.text) g.reaching.entries
    have same : Fact.node (.output v) ∈ facts { c with reaching := .empty } ↔ Fact.node (.output v) ∈ c.facts :=
      Iff.rfl
    rw [has_iff, same, grows.facts, Set.mem_union, or_iff_right (hg.unclosed v), ← lists_iff_writes hg.valid]
    constructor
    · rintro ⟨⟨w, d⟩, hr, closed⟩
      obtain rfl : v = w := output_mem_closing closed
      exact Option.isSome_iff_exists.2 ⟨d, Table.get?_of_mem hg.valid.keys (perm.mem_iff.1 hr)⟩
    · intro listed
      obtain ⟨d, found⟩ := Option.isSome_iff_exists.1 listed
      exact ⟨(v, d), perm.mem_iff.2 (Table.mem_of_get? found), .inl rfl⟩
  · rcases (edges _ _ _).1 (valid.edge?_eq_true.1 reads) with reads | ⟨-, w, d, output, -⟩
    · exact ⟨_, reads⟩
    · cases output

end Pdg

namespace Dependence

open Pdg

variable {p : Program} {s : Site} {g h : Pdg} {triggers : Bool}

namespace Site

/-- The accesses of a step that writes `ws`. -/
def accessing (p : Program) (s : Site) (ws : List Variable) : List Act :=
  (s.released p).map .forget ++ ((s.reads p).map (.read · (s.owner p).key) ++
    ((usedResult? p s).toList.map (fun v => .forget (.only v)) ++ ws.map (.write · (s.owner p).key)))

/-- The variables that a step writes, its trigger included if there are triggers. -/
def written (p : Program) (triggers : Bool) (s : Site) : List Variable :=
  if triggers then s.definitions p else s.writes

end Site

/-- Once a step has performed its acts and is connected, its accesses tell what is new about data. -/
theorem extends_of_performs {acts : List Act} {c : Option String} {f : Focus} (hg : g.Unfinished)
    (performs : Performs g acts c f) (final : match f.node with
      | none => h = f.graph
      | some n => connect p s n f.graph = .ok h) :
    Extends g h ∧ flows h.facts = (acts.filter Act.isAccess).foldl Act.carry (flows g.facts) := by
  have later := performs.extends hg
  have carried : flows f.graph.facts = (acts.filter Act.isAccess).foldl Act.carry (flows g.facts) := by
    rw [performs.facts, flows_foldl, carry_accesses]
  cases hn : f.node with
  | none =>
      simp only [hn] at final
      subst final
      exact ⟨later, carried⟩
  | some n =>
      simp only [hn] at final
      obtain ⟨key, -, name⟩ : ∃ key, c = some key ∧ f.graph.idOf? n = some (.statement key) := by
        have node := performs.node
        rw [hn, Option.map_some] at node
        obtain ⟨key, rfl, name⟩ := Option.map_eq_some_iff.1 node.symm
        exact ⟨key, rfl, name.symm⟩
      obtain ⟨connected, same⟩ := connect_extends later.becomes.unfinished name final
      exact ⟨later.trans connected, same.trans carried⟩

theorem evaluatedAt_accesses (hg : g.Unfinished) (heval : evaluatedAt p triggers s g = .ok h) :
    Extends g h ∧
      flows h.facts = (s.accessing p (s.written p triggers)).foldl Act.carry (flows g.facts) := by
  cases triggers with
  | true =>
      obtain ⟨acts, c, f, performs, signals, final⟩ := evaluatedAt_signals hg.valid heval
      have accessed := extends_of_performs hg performs final
      rw [signals] at accessed
      exact accessed
  | false =>
      obtain ⟨f, performs, final⟩ := evaluatedAt_performs hg.valid heval
      have accessed := extends_of_performs hg performs final
      rw [Site.filter_acts] at accessed
      exact accessed

namespace Site

variable {ws : List Variable} {v : Variable} {o : Owner} {d : Decl}

theorem accessing_defines (hv : v ∈ ws) : Defines (s.accessing p ws) v (s.owner p).key := by
  unfold accessing
  rw [← List.append_assoc, ← List.append_assoc]
  refine defines_append _ (List.mem_map.2 ⟨v, hv, rfl⟩) fun x hx changes => ?_
  obtain ⟨w, -, rfl⟩ := List.mem_map.1 hx
  rw [changes_write.1 changes]

/-- Other variables than those of frames change only by being written. -/
theorem accessing_unchanged (outer : v.isLocal = false) (unwritten : v ∉ ws) :
    ∀ x ∈ s.accessing p ws, ¬ x.Changes v := by
  intro x hx
  simp only [accessing, List.mem_append, List.mem_map, Option.mem_toList] at hx
  rcases hx with ⟨what, hwhat, rfl⟩ | ⟨w, -, rfl⟩ | ⟨w, hw, rfl⟩ | ⟨w, hw, rfl⟩
  · rw [changes_forget]
    intro drops
    rw [released_local hwhat drops] at outer
    cases outer
  · exact changes_read
  · rw [changes_forget]
    simp only [Forgetting.drops, decide_eq_true_eq]
    rintro rfl
    obtain ⟨r, -, rfl⟩ := Option.map_eq_some_iff.1 hw
    cases outer
  · rw [changes_write]
    rintro rfl
    exact unwritten hw

/-- Only the evaluation itself reads global variables. -/
theorem read_of_reads (h : .global o d ∈ s.reads p) : .global o d ∈ s.after.scratch.read := by
  rcases (mem_foldl_addVariable _ _).1 h with h | h
  · exact h
  · rcases List.mem_append.1 h with h | h
    · unfold passed at h
      split at h
      · split at h
        · simp [Variable.ofFrame] at h
        · cases h
      · cases h
    · obtain ⟨r, -, same⟩ := Option.map_eq_some_iff.1 (Option.mem_toList.1 h)
      cases same

/-- Triggers are no global variables. -/
theorem mem_written : .global o d ∈ s.written p triggers ↔ .global o d ∈ s.writes := by
  cases triggers with
  | false => rfl
  | true =>
      refine mem_definitions.trans (or_iff_left fun triggered => ?_)
      unfold trigger? at triggered
      split at triggered
      · split at triggered
        · obtain ⟨i, -, same⟩ := Option.bind_eq_some_iff.1 triggered
          obtain ⟨j, -, same⟩ := Option.bind_eq_some_iff.1 same
          obtain ⟨c, -, same⟩ := Option.bind_eq_some_iff.1 same
          obtain ⟨r, -, same⟩ := Option.map_eq_some_iff.1 same
          cases same
        · obtain ⟨i, -, same⟩ := Option.map_eq_some_iff.1 triggered
          cases same
        · simp at triggered
        · cases triggered
      · cases triggered

end Site

theorem touches_of_accessing {ws : List Variable} (hg : g.Unfinished)
    (accessed : flows h.facts = (s.accessing p ws).foldl Act.carry (flows g.facts)) :
    Touches (s.reads p) ws g h := by
  have statements : Statements (flows g.facts) := fun w c hc => hg.statements w c hc.1
  have flow : ∀ {f}, IsFlow f → (f ∈ h.facts ↔ f ∈ (s.accessing p ws).foldl Act.carry (flows g.facts)) := by
    intro f hf
    rw [← accessed]
    exact (and_iff_left hf).symm
  refine ⟨fun {o d} => ?_, fun {o d} hh => ?_⟩
  · by_cases hw : .global o d ∈ ws
    · refine iff_of_true ⟨.statement (s.owner p).key, (flow (f := .reaches _ _) trivial).2 ?_⟩ (.inr hw)
      exact (reaches_of_defines _ (Site.accessing_defines hw) _).2 rfl
    · rw [or_iff_left hw]
      refine exists_congr fun a => (flow (f := .reaches _ _) trivial).trans ?_
      rw [reaches_of_unchanged (Site.accessing_unchanged rfl hw)]
      exact and_iff_left trivial
  · obtain ⟨key, hkey⟩ := hh
    rcases edge_input_cases statements ((flow (f := .edge ..) rfl).1 hkey) with before | ⟨before, after, split, -⟩
    · exact .inl ⟨key, before.1⟩
    · have read : Act.read (.global o d) key ∈ s.accessing p ws := by simp [split]
      simp only [Site.accessing, List.mem_append, List.mem_map, reduceCtorEq, and_false, exists_false, false_or,
        or_false, Act.read.injEq] at read
      obtain ⟨w, hw, rfl, -⟩ := read
      exact .inr hw

section

variable {t : Transition}

/-- Global variables are written by assignments only, and assignments are announced. -/
def Reported (t : Transition) (e : Option Expr) : Prop :=
  ∀ o d, .global o d ∈ t.scratch.written →
    t.scratch.announced ≠ none ∧ ∃ id x y, e = some (.binary id .assign x y)

theorem Site.mem_writes_assign {id : Nat} {x y : Expr} {v : Variable} (assigns : s.expr = .binary id .assign x y)
    (h : v ∈ s.after.scratch.written) : v ∈ s.writes := by
  unfold writes
  rw [assigns]
  exact (mem_foldl_addVariable _ _).2 (.inl h)

theorem forget_touches {q : Variable → Bool} (apart : ∀ o d, q (.global o d) = false) :
    Touches [] [] g (g.forget q) := by
  have facts := forget_facts (g := g) q
  refine .of_facts (fun {o d a} => ?_) fun hh => ?_
  · rw [facts]
    simp only [Set.mem_ofPred_eq, tells_reaches, Fact.reaches.injEq, reduceCtorEq, and_false, exists_false, or_false]
    refine and_iff_left ?_
    rintro v hv rfl
    rw [apart] at hv
    cases hv
  · rw [facts] at hh
    rcases hh with ⟨hh, -⟩ | ⟨v, -, hh⟩
    · exact hh
    · cases hh

/-- A small step touches the global variables that the evaluation reports. -/
theorem evaluated_touches {e : Option Expr} {i : Int} (hg : g.Unfinished) (reported : Reported t e)
    (heval : evaluated p triggers t e i g = .ok h) :
    Becomes g h ∧ Touches t.scratch.read t.scratch.written g h := by
  -- A step that is not announced reports no global variable as written.
  have idle : ∀ {h}, Touches [] [] g h → (∀ o d, .global o d ∉ t.scratch.written) →
      Touches t.scratch.read t.scratch.written g h := by
    intro h touches unwritten
    exact ⟨by simp [touches.writes, unwritten], fun hh => (touches.reads hh).imp_right (absurd · List.not_mem_nil)⟩
  unfold evaluated at heval
  split at heval
  · obtain rfl := Except.ok.inj heval
    refine ⟨?_, idle ?_ fun o d hw => ?_⟩
    · split
      · exact forget_becomes hg _
      · exact .refl hg
    · split
      · exact forget_touches fun _ _ => rfl
      · exact .refl g
    · obtain ⟨-, _, _, _, assigns⟩ := reported o d hw
      cases assigns
  · rename_i e
    split at heval
    · rename_i silent
      obtain rfl := Except.ok.inj heval
      exact ⟨.refl hg, idle (.refl g) fun o d hw => (reported o d hw).1 silent⟩
    · cases heval
    · rename_i l callers announced
      split at heval
      · cases heval
      · rename_i j up path
        obtain ⟨later, accessed⟩ := evaluatedAt_accesses hg heval
        have touches := touches_of_accessing hg accessed
        refine ⟨later.becomes, fun {o d} => ?_, fun {o d} hh => (touches.reads hh).imp_right Site.read_of_reads⟩
        rw [touches.writes, Site.mem_written]
        refine or_congr_right ⟨fun hw => Site.written_of_writes hw rfl, fun hw => ?_⟩
        obtain ⟨-, id, x, y, assigns⟩ := reported o d hw
        exact Site.mem_writes_assign (Option.some.inj assigns) hw

/-- A wakeup concerns no global variable. -/
theorem woken_touches {q : Process} {events : List Event} {before : EventList} (hg : g.Unfinished)
    (woken : woken t q events before g = .ok h) : Becomes g h ∧ Touches [] [] g h := by
  obtain ⟨stack, resumes⟩ := woken_resumes woken
  obtain ⟨c, n, woken', grows, becomes, name⟩ := woken_defines events before hg resumes
  obtain rfl := Except.ok.inj (woken.symm.trans woken')
  have facts := addDefinition_facts (v := .ofResumption q.inst stack) name
  refine ⟨becomes.trans (addDefinition_becomes becomes.unfinished name), ?_⟩
  refine (Touches.of_grows hg.valid grows fun o d key read => ?_).trans (.of_facts (fun {o d a} => ?_) fun hh => ?_)
  · obtain same | ⟨e, -, ⟨-, same⟩ | ⟨c, reaches, same⟩⟩ := read
    · cases same
    · cases same
    · obtain ⟨-, source, -⟩ := Fact.edge.inj same
      cases c with
      | none => cases source
      | some a =>
          obtain ⟨key, rfl⟩ := hg.statements _ _ reaches
          cases source
  · rw [facts]
    simp [Variable.ofResumption]
  · rw [facts] at hh
    exact (hh.resolve_right (by simp)).1

/-- Code is entered on account of a trigger at most. -/
theorem start_touches (hg : g.Unfinished) (starts : start triggers t g = .ok h) :
    h.Unfinished ∧ h.entry.isSome ∧ Touches [] [] g h := by
  cases triggers with
  | true =>
      obtain ⟨stack, o, -, -, unfinished, entry, facts⟩ := start_enters hg starts
      refine ⟨unfinished, isSome_entry entry, .of_facts (by simp [facts]) fun hh => ?_⟩
      rw [facts] at hh
      simpa using hh
  | false =>
      unfold start at starts
      split at starts
      · cases starts
      · rename_i stack resumes
        obtain rfl : (g.enter (.point t.origin stack)).2 = h := Except.ok.inj starts
        have facts : (g.enter (.point t.origin stack)).2.facts =
            g.facts ∪ {.node (.entry (StatementId.point t.origin stack).key)} :=
          (node_grows hg.valid (.entry (StatementId.point t.origin stack).key) _).1.facts
        obtain ⟨unfinished, entry, -⟩ := enter_unfinished hg (.point t.origin stack)
        refine ⟨unfinished, isSome_entry entry, .of_facts (by simp [facts]) fun hh => ?_⟩
        rw [facts] at hh
        simpa using hh

end

end Dependence

end DeltaSlice
