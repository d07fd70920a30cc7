import NexusCore.Foundation.History
import NexusCore.Schema.Traps

/-!
# What the past of the component says

`Accounted` relates a component to the calls it has answered: its schema is the newest one that
was installed, versions were installed in ascending order, and the counters add up.

* `accounted_step`: every call extends it;
* `explained_of_accounted`: so every call is explained by its past;
* `schema_history`: over a whole run, an accepted frame is decoded by the one descriptor that
  was ever installed under its version.
-/

namespace NexusCore.Schema

open Foundation.Machine Foundation.History

/-- A call that was answered. -/
abbrev Answered := Step Component Call Reply

/-- The descriptor that an answered call installed. -/
def installedBy (x : Answered) : Option RawSchemaDescriptor :=
  match x.input, x.output with
  | .applySchemaUpdate raw, .update .ok => some (readDescriptor raw)
  | _, _ => none

/-- The descriptors the component ever held, in order. -/
def installed (xs : List Answered) : List RawSchemaDescriptor :=
  emptySchema :: xs.filterMap installedBy

/-- Whether an answered call was a frame. -/
def isFrame (x : Answered) : Bool :=
  match x.input with
  | .processFrame _ _ => true
  | .applySchemaUpdate _ => false

/-- How many frames were processed or rejected. -/
def frameCalls (xs : List Answered) : ℕ := xs.countP isFrame

/-- How many updates were answered `Ok`. -/
def okUpdates (xs : List Answered) : ℕ := xs.countP fun x => (installedBy x).isSome

/-- The component did what it was asked to: it answered `ok`, or did not count an error. -/
def Accepted (x : Answered) : Prop :=
  match x.input with
  | .applySchemaUpdate _ => x.output = .update .ok
  | .processFrame _ _ => x.after.errors = x.before.errors

theorem installed_snoc (xs : List Answered) (x : Answered) :
    installed (xs ++ [x]) = installed xs ++ (installedBy x).toList := by
  rw [installed, installed, List.filterMap_append, List.cons_append]
  rfl

theorem frameCalls_snoc (xs : List Answered) (x : Answered) :
    frameCalls (xs ++ [x]) = frameCalls xs + if isFrame x then 1 else 0 := by
  rw [frameCalls, List.countP_append, List.countP_singleton]
  rfl

theorem okUpdates_snoc (xs : List Answered) (x : Answered) :
    okUpdates (xs ++ [x]) = okUpdates xs + if (installedBy x).isSome then 1 else 0 := by
  rw [okUpdates, List.countP_append, List.countP_singleton]
  rfl

theorem okUpdates_le (xs : List Answered) : okUpdates xs ≤ xs.length := List.countP_le_length

theorem frameCalls_le (xs : List Answered) : frameCalls xs ≤ xs.length := List.countP_le_length

/-! ### The invariant -/

/-- A component and the calls it has answered. -/
structure Accounted (past : List Answered) (c : Component) : Prop where
  fits : FieldsFit c.schema
  current : c.schema ∈ installed past
  newest : ∀ d ∈ installed past, versionOf d ≤ versionOf c.schema
  ascending : (installed past).Pairwise fun d e => versionOf d < versionOf e
  counters : past.length < 2 ^ 64 → c.processed.toNat + c.errors.toNat = frameCalls past ∧
    c.schemaUpdates.toNat = okUpdates past

theorem accounted_init : Accounted [] Component.init where
  fits := Nat.zero_le _
  current := List.mem_singleton_self _
  newest := by
    intro d hd
    obtain rfl := List.mem_singleton.mp hd
    exact Nat.le_refl _
  ascending := List.pairwise_singleton _ _
  counters := fun _ => ⟨rfl, rfl⟩

/-- The calls that the history admits: no descriptor has more fields than the tables. -/
def Admitted (call : Call) : Prop :=
  ∀ raw, call = .applySchemaUpdate raw → IsDescriptor raw → FieldsFit (readDescriptor raw)

variable {past : List Answered} {c c' : Component} {call : Call} {reply : Reply}

/-- A call that installs nothing keeps the schema's part of the account. -/
theorem Accounted.of_same_schema (h : Accounted past c) (hschema : c'.schema = c.schema)
    {x : Answered} (hnone : installedBy x = none)
    (hcounters : (past ++ [x]).length < 2 ^ 64 →
      c'.processed.toNat + c'.errors.toNat = frameCalls (past ++ [x]) ∧
        c'.schemaUpdates.toNat = okUpdates (past ++ [x])) :
    Accounted (past ++ [x]) c' := by
  have hsame : installed (past ++ [x]) = installed past := by
    rw [installed_snoc, hnone, Option.toList_none, List.append_nil]
  refine ⟨?_, ?_, ?_, ?_, hcounters⟩
  · rw [hschema]
    exact h.fits
  · rw [hschema, hsame]
    exact h.current
  · rw [hschema, hsame]
    exact h.newest
  · rw [hsame]
    exact h.ascending

/-- **An update extends the account.** -/
theorem accounted_update (h : Accounted past c) (raw : List UInt8)
    (hraw : Admitted (.applySchemaUpdate raw)) :
    Accounted (past ++ [⟨c, .applySchemaUpdate raw, .update (applySchemaUpdate c raw).1,
      (applySchemaUpdate c raw).2⟩]) (applySchemaUpdate c raw).2 := by
  rcases applySchemaUpdate_cases c raw with ⟨-, heq⟩ | ⟨-, -, heq⟩ | ⟨hdesc, hlt, heq⟩
  · rw [heq]
    refine h.of_same_schema ?_ rfl ?_
    · rfl
    intro hlen
    rw [List.length_append] at hlen
    rw [frameCalls_snoc, okUpdates_snoc]
    exact h.counters (by omega)
  · rw [heq]
    refine h.of_same_schema ?_ rfl ?_
    · rfl
    intro hlen
    rw [List.length_append] at hlen
    rw [frameCalls_snoc, okUpdates_snoc]
    exact h.counters (by omega)
  · rw [heq]
    let x : Answered := ⟨c, .applySchemaUpdate raw, .update .ok,
      { c with schema := readDescriptor raw, schemaUpdates := c.schemaUpdates + 1 }⟩
    have hinst : installed (past ++ [x]) = installed past ++ [readDescriptor raw] :=
      installed_snoc past x
    refine ⟨hraw raw rfl hdesc, ?_, ?_, ?_, ?_⟩
    · rw [hinst]
      exact List.mem_append_right _ (List.mem_singleton_self _)
    · rw [hinst]
      intro d hd
      rcases List.mem_append.mp hd with hd | hd
      · exact Nat.le_trans (h.newest d hd) (Nat.le_of_lt hlt)
      · obtain rfl := List.mem_singleton.mp hd
        exact Nat.le_refl _
    · rw [hinst, List.pairwise_append]
      refine ⟨h.ascending, List.pairwise_singleton _ _, ?_⟩
      intro d hd e he
      obtain rfl := List.mem_singleton.mp he
      exact Nat.lt_of_le_of_lt (h.newest d hd) hlt
    · intro hlen
      rw [List.length_append, List.length_singleton] at hlen
      obtain ⟨hframes, hupdates⟩ := h.counters (by omega)
      have hle := okUpdates_le past
      rw [frameCalls_snoc, okUpdates_snoc]
      refine ⟨hframes, ?_⟩
      show (c.schemaUpdates + 1).toNat = okUpdates past + 1
      rw [toNat_add64_of_lt (by rw [show (1 : UInt64).toNat = 1 from rfl]; omega), hupdates]
      rfl

/-- What a frame is answered with. -/
theorem processFrame_cases (hfit : FieldsFit c.schema) (frame : List UInt8)
    (schemaVersion : UInt64) :
    (schemaVersion = c.schema.version ∧ ∃ vs,
      decodeFields c.schema frame c.schema.fieldCount.toNat 0 = .ok vs ∧
      c.call (.processFrame frame schemaVersion)
        = .ok (.fields vs, { c with processed := c.processed + 1 })) ∨
    (schemaVersion ≠ c.schema.version ∧ c.call (.processFrame frame schemaVersion)
        = .ok (.fields [], { c with errors := c.errors + 1 })) := by
  by_cases hver : schemaVersion = c.schema.version
  · obtain ⟨vs, hvs, -⟩ := decodeFields_returns c.schema frame (k := c.schema.fieldCount.toNat)
      (i := 0) (by rw [Nat.zero_add]; exact hfit)
    refine Or.inl ⟨hver, vs, hvs, ?_⟩
    rw [Component.call, processFrame, if_neg (not_not.mpr hver), hvs]
    rfl
  · refine Or.inr ⟨hver, ?_⟩
    rw [Component.call, processFrame, if_pos hver]
    rfl

/-- **A frame extends the account.** -/
theorem accounted_frame (h : Accounted past c) (frame : List UInt8) (schemaVersion : UInt64)
    (hcall : c.call (.processFrame frame schemaVersion) = .ok (reply, c')) :
    Accounted (past ++ [⟨c, .processFrame frame schemaVersion, reply, c'⟩]) c' := by
  have hone : (1 : UInt64).toNat = 1 := rfl
  rcases processFrame_cases h.fits frame schemaVersion with ⟨-, vs, -, heq⟩ | ⟨-, heq⟩
  · rw [heq] at hcall
    cases hcall
    refine h.of_same_schema ?_ rfl ?_
    · rfl
    intro hlen
    rw [List.length_append, List.length_singleton] at hlen
    obtain ⟨hframes, hupdates⟩ := h.counters (by omega)
    have hle := frameCalls_le past
    rw [frameCalls_snoc, okUpdates_snoc]
    refine ⟨?_, hupdates⟩
    show (c.processed + 1).toNat + c.errors.toNat = frameCalls past + 1
    rw [toNat_add64_of_lt (by omega), hone]
    omega
  · rw [heq] at hcall
    cases hcall
    refine h.of_same_schema ?_ rfl ?_
    · rfl
    intro hlen
    rw [List.length_append, List.length_singleton] at hlen
    obtain ⟨hframes, hupdates⟩ := h.counters (by omega)
    have hle := frameCalls_le past
    rw [frameCalls_snoc, okUpdates_snoc]
    refine ⟨?_, hupdates⟩
    show c.processed.toNat + (c.errors + 1).toNat = frameCalls past + 1
    rw [toNat_add64_of_lt (by omega), hone]
    omega

/-- **Every call extends the account.** -/
theorem accounted_step (past : List Answered) (c : Component) (call : Call) (reply : Reply)
    (c' : Component) (hcall : Admitted call) (h : Accounted past c)
    (hnext : c.call call = .ok (reply, c')) : Accounted (past ++ [⟨c, call, reply, c'⟩]) c' := by
  cases call with
  | applySchemaUpdate raw =>
      cases hnext
      exact accounted_update h raw hcall
  | processFrame frame schemaVersion => exact accounted_frame h frame schemaVersion hnext

/-- A component that is accounted for answers every call. -/
theorem call_returns (h : Accounted past c) (call : Call) : Returns (c.call call) := by
  cases call with
  | applySchemaUpdate raw => exact returns_ok _
  | processFrame frame schemaVersion =>
      rcases processFrame_cases h.fits frame schemaVersion with ⟨-, vs, -, heq⟩ | ⟨-, heq⟩
      · rw [heq]
        exact returns_ok _
      · rw [heq]
        exact returns_ok _

/-! ### What the past explains -/

/-- What the calls before `x` say about it. -/
structure Explained (past : List Answered) (x : Answered) : Prop where
  /-- a frame that is not counted as an error is decoded by the descriptor of its version -/
  decodes : ∀ frame schemaVersion, x.input = .processFrame frame schemaVersion → Accepted x →
    ∃ d ∈ installed past, d.version = schemaVersion ∧ x.after.processed = x.before.processed + 1 ∧
      ∃ vs, decodeFields d frame d.fieldCount.toNat 0 = .ok vs ∧ x.output = .fields vs
  /-- a frame of another version than the current one is answered with nothing, and counted -/
  rejects : ∀ frame schemaVersion, x.input = .processFrame frame schemaVersion →
    (¬ Accepted x ↔ schemaVersion ≠ x.before.schema.version) ∧
      (¬ Accepted x → x.output = .fields [] ∧ x.after.errors = x.before.errors + 1 ∧
        x.after.processed = x.before.processed)
  rejected : ¬ Accepted x → x.after.schema = x.before.schema
  counters : x.after.processed.toNat + x.after.errors.toNat = frameCalls (past ++ [x]) ∧
    x.after.schemaUpdates.toNat = okUpdates (past ++ [x])

/-- **What became of a frame**: it was decoded and counted as processed, or rejected and counted as
an error. -/
theorem frame_answered {x : Answered} (hfit : FieldsFit x.before.schema)
    (hcall : x.before.call x.input = .ok (x.output, x.after)) {frame : List UInt8}
    {schemaVersion : UInt64} (hinput : x.input = .processFrame frame schemaVersion) :
    (Accepted x ∧ schemaVersion = x.before.schema.version ∧ ∃ vs,
      decodeFields x.before.schema frame x.before.schema.fieldCount.toNat 0 = .ok vs ∧
      x.output = .fields vs ∧ x.after = { x.before with processed := x.before.processed + 1 }) ∨
    (¬ Accepted x ∧ schemaVersion ≠ x.before.schema.version ∧ x.output = .fields [] ∧
      x.after = { x.before with errors := x.before.errors + 1 }) := by
  rw [hinput] at hcall
  rcases processFrame_cases hfit frame schemaVersion with ⟨hver, vs, hvs, heq⟩ | ⟨hne, heq⟩
  · obtain ⟨houtput, hafter⟩ := Prod.mk.inj (Except.ok.inj (heq.symm.trans hcall))
    refine Or.inl ⟨?_, hver, vs, hvs, houtput.symm, hafter.symm⟩
    rw [Accepted, hinput, ← hafter]
  · obtain ⟨houtput, hafter⟩ := Prod.mk.inj (Except.ok.inj (heq.symm.trans hcall))
    refine Or.inr ⟨?_, hne, houtput.symm, hafter.symm⟩
    rw [Accepted, hinput, ← hafter]
    exact fun herrors => absurd (UInt64.add_eq_left.mp herrors) (by decide)

/-- **A call is explained by the account before it and the one after it.** -/
theorem explained_of_accounted {past : List Answered} {x : Answered}
    (h : Accounted past x.before) (h' : Accounted (past ++ [x]) x.after)
    (hcall : x.before.call x.input = .ok (x.output, x.after))
    (hlen : (past ++ [x]).length < 2 ^ 64) : Explained past x where
  decodes := by
    intro frame schemaVersion hinput haccepted
    rcases frame_answered h.fits hcall hinput with
      ⟨-, hver, vs, hvs, houtput, hafter⟩ | ⟨hnot, -⟩
    · refine ⟨x.before.schema, h.current, hver.symm, ?_, vs, hvs, houtput⟩
      rw [hafter]
    · exact absurd haccepted hnot
  rejects := by
    intro frame schemaVersion hinput
    rcases frame_answered h.fits hcall hinput with ⟨hacc, hver, -⟩ | ⟨hnot, hne, houtput, hafter⟩
    · exact ⟨iff_of_false (not_not.mpr hacc) (not_not.mpr hver), fun hnot => absurd hacc hnot⟩
    · refine ⟨iff_of_true hnot hne, fun _ => ?_⟩
      rw [hafter]
      exact ⟨houtput, rfl, rfl⟩
  rejected := by
    intro hnot
    obtain ⟨c, call, reply, c'⟩ := x
    cases call with
    | applySchemaUpdate raw =>
        obtain ⟨houtput, hafter⟩ := Prod.mk.inj (Except.ok.inj hcall)
        rcases applySchemaUpdate_cases c raw with ⟨-, heq⟩ | ⟨-, -, heq⟩ | ⟨-, -, heq⟩
        · rw [← hafter, heq]
        · rw [← hafter, heq]
        · rw [heq] at houtput
          exact absurd houtput.symm hnot
    | processFrame frame schemaVersion =>
        rcases frame_answered h.fits hcall rfl with ⟨hacc, -⟩ | ⟨-, -, -, hafter⟩
        · exact absurd hacc hnot
        · rw [hafter]
  counters := h'.counters hlen

/-- Two calls one after another. -/
theorem runCalls_snoc {c c₁ c₂ : Component} {calls : List Call} {replies : List Reply} {call : Call}
    {reply : Reply} (hrun : runCalls c calls = .ok (replies, c₁))
    (hcall : c₁.call call = .ok (reply, c₂)) :
    runCalls c (calls ++ [call]) = .ok (replies ++ [reply], c₂) := by
  induction calls generalizing c replies with
  | nil =>
      cases hrun
      simp only [List.nil_append, runCalls, hcall, ok_bind]
  | cons first calls ih =>
      obtain ⟨⟨r, c'⟩, hfirst, hrest⟩ := bind_eq_ok.mp hrun
      obtain ⟨⟨rs, c''⟩, hrun', hend⟩ := bind_eq_ok.mp hrest
      cases hend
      simp only [List.cons_append, runCalls, hfirst, ok_bind, ih hrun']

/-- A recorded run is a run. -/
theorem runCalls_of_recorded {c₀ c : Component} {xs : List Answered}
    (h : Recorded Component.call c₀ xs c) :
    runCalls c₀ (xs.map Step.input) = .ok (xs.map Step.output, c) := by
  induction h with
  | nil => rfl
  | snoc _ hcall ih =>
      rw [List.map_append, List.map_append]
      exact runCalls_snoc ih hcall

/-- Versions that ascend are taken once. -/
theorem eq_of_ascending {ds : List RawSchemaDescriptor}
    (h : ds.Pairwise fun d e => versionOf d < versionOf e) {a b : RawSchemaDescriptor}
    (ha : a ∈ ds) (hb : b ∈ ds) (hab : versionOf a = versionOf b) : a = b := by
  have hnodup : (ds.map versionOf).Nodup := by
    rw [List.Nodup, List.pairwise_map]
    exact h.imp Nat.ne_of_lt
  exact List.inj_on_of_nodup_map hnodup ha hb hab

/-- What is installed before a step is installed after it. -/
theorem installed_subset {xs past future : List Answered} {x : Answered}
    (h : xs = past ++ x :: future) : installed past ⊆ installed xs := by
  subst h
  rw [installed, installed, List.filterMap_append]
  intro d hd
  rcases List.mem_cons.mp hd with rfl | hd
  · exact List.mem_cons_self
  · exact List.mem_cons_of_mem _ (List.mem_append_left _ hd)

/-- Accepted frames of one version, anywhere in a run, are answered alike. -/
theorem accepted_frames_agree {xs : List Answered}
    (hasc : (installed xs).Pairwise fun d e => versionOf d < versionOf e)
    (hexplained : ∀ past x future, xs = past ++ x :: future → Explained past x)
    {x y : Answered} (hx : x ∈ xs) (hy : y ∈ xs) {frame : List UInt8} {schemaVersion : UInt64}
    (hxin : x.input = .processFrame frame schemaVersion)
    (hyin : y.input = .processFrame frame schemaVersion) (hxacc : Accepted x)
    (hyacc : Accepted y) : x.output = y.output := by
  obtain ⟨past, future, hsplit⟩ := List.append_of_mem hx
  obtain ⟨past', future', hsplit'⟩ := List.append_of_mem hy
  obtain ⟨d, hd, hver, -, vs, hvs, hxout⟩ :=
    (hexplained past x future hsplit).decodes frame schemaVersion hxin hxacc
  obtain ⟨e, he, hver', -, ws, hws, hyout⟩ :=
    (hexplained past' y future' hsplit').decodes frame schemaVersion hyin hyacc
  -- both descriptors were installed under the one version
  have hde : d = e := by
    apply eq_of_ascending hasc (installed_subset hsplit hd) (installed_subset hsplit' he)
    rw [versionOf, versionOf, hver, hver']
  rw [hde, hws] at hvs
  rw [hxout, hyout, Except.ok.inj hvs]

/-- **Every decoded frame used the one schema its version names, and the counters account for
every call.**  A run of calls whose descriptors respect the tables ends; the versions installed
in it ascend, so none is installed twice; every call is explained by its past: a frame that is
not counted as an error is decoded with the descriptor installed under its version, a frame of
another version than the current one is counted as an error and answered with nothing, a
rejected call leaves the schema alone, and the counters are the numbers of frames and of
accepted updates so far.  Accepted frames that are equal and name one version are answered with
equal lists, whatever happened in between. -/
theorem schema_history (calls : List Call)
    (hfit : ∀ raw, .applySchemaUpdate raw ∈ calls → IsDescriptor raw →
      (readDescriptor raw).fieldCount.toNat ≤ 64) (hlen : calls.length < 2 ^ 64) :
    ∃ (xs : List Answered) (c : Component), Recorded Component.call Component.init xs c ∧
      xs.map Step.input = calls ∧
      runCalls Component.init calls = .ok (xs.map Step.output, c) ∧
      (installed xs).Pairwise (fun d e => versionOf d < versionOf e) ∧
      (∀ past x future, xs = past ++ x :: future → Explained past x) ∧
      (∀ x ∈ xs, ∀ y ∈ xs, ∀ frame schemaVersion, x.input = .processFrame frame schemaVersion →
        y.input = .processFrame frame schemaVersion → Accepted x → Accepted y →
        x.output = y.output) := by
  have hadmitted : ∀ call ∈ calls, Admitted call := by
    intro call hcall raw hraw
    subst hraw
    exact hfit raw hcall
  obtain ⟨xs, c, hxs, hinputs⟩ := exists_recorded accounted_init accounted_step
    (fun _ _ call _ h => call_returns h call) calls hadmitted
  have hin : ∀ x ∈ xs, Admitted x.input := by
    intro x hx
    apply hadmitted
    rw [← hinputs]
    exact List.mem_map_of_mem hx
  have hasc := (hxs.invariant accounted_init accounted_step hin).ascending
  have hexplained : ∀ past x future, xs = past ++ x :: future → Explained past x := by
    intro past x future hsplit
    subst hsplit
    obtain ⟨hpast, hnow, hcall⟩ := hxs.split
    have hbefore := hpast.invariant accounted_init accounted_step fun y hy =>
      hin y (List.mem_append_left _ hy)
    have hafter := hnow.invariant accounted_init accounted_step fun y hy => by
      apply hin y
      rcases List.mem_append.mp hy with hy | hy
      · exact List.mem_append_left _ hy
      · obtain rfl := List.mem_singleton.mp hy
        exact List.mem_append_right _ List.mem_cons_self
    apply explained_of_accounted hbefore hafter hcall
    rw [← hinputs, List.length_map, List.length_append, List.length_cons] at hlen
    rw [List.length_append, List.length_singleton]
    omega
  have hrun := runCalls_of_recorded hxs
  rw [hinputs] at hrun
  exact ⟨xs, c, hxs, hinputs, hrun, hasc, hexplained,
    fun x hx y hy _ _ hxin hyin hxacc hyacc =>
      accepted_frames_agree hasc hexplained hx hy hxin hyin hxacc hyacc⟩

/-- A frame, an update between, and a frame of a version that is no longer there. -/
theorem schema_history_short :
    ∃ (xs : List Answered) (c : Component), Recorded Component.call Component.init xs c ∧
      xs.map Step.input = [.processFrame [1] 0, .applySchemaUpdate (2 :: List.replicate 201 0),
        .processFrame [1] 0] ∧
      (installed xs).Pairwise (fun d e => versionOf d < versionOf e) ∧
      ∀ past x future, xs = past ++ x :: future → Explained past x := by
  obtain ⟨xs, c, hxs, hinputs, -, hasc, hexplained, -⟩ :=
    schema_history [.processFrame [1] 0, .applySchemaUpdate (2 :: List.replicate 201 0),
      .processFrame [1] 0] (by
        intro raw hraw _
        simp only [List.mem_cons, reduceCtorEq, Call.applySchemaUpdate.injEq, List.not_mem_nil,
          or_false, false_or] at hraw
        subst hraw
        decide +kernel) (by decide)
  exact ⟨xs, c, hxs, hinputs, hasc, hexplained⟩

end NexusCore.Schema
