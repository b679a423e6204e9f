/-
  File:      RagRat/TableSync/Registry.lean
  Subject:   The declared tables (`registry.rs`) and what a row op means under them, before any row
             is read: the projection of its cells and the verdict on its payload (`apply.rs`).

  * `TableSpec` -- one syncable table, with the two lints of `assert_spec_covers_schema` the applier
    rests on as fields;
  * `projectCells` -- the complete after-image of an op's cells, or why there is none;
  * `payloadVerdict` -- everything `apply_row_op_on_stream` settles on the payload alone;
  * `WellTyped` -- the keys that pass it: right arity, no null, every value of its column's type;
  * `projection_composes` -- a table that evolves in two steps projects as in one.
-/
import RagRat.TableSync.RowOp

namespace RagRat.TableSync

open List

variable {v : Nat} {cells : List Cell} {c c' : ColumnSpec} {nv : String × TypedValue}
  {known : Known} {cell : Cell}

/-! ## 1. The registry -/

/-- The type of a column. -/
inductive ValueType where
  | text | i64 | bool | blob
  deriving DecidableEq

/-- The default of an added column. -/
inductive DefaultValue where
  | null
  | bool (b : Bool)
  | i64 (n : Int64)
  | text (s : String)
  | blob (bs : Lib.Cbor.Bytes)
  deriving DecidableEq

/-- When a column entered the spec, and what an op authored before that contributes for it. -/
structure AddedColumn where
  inVersion : Nat
  default : DefaultValue
  deriving DecidableEq

/-- A synced column. -/
structure ColumnSpec where
  name : String
  valueType : ValueType
  added : Option AddedColumn
  deriving DecidableEq

/-- A column every op must carry. -/
def ColumnSpec.required (name : String) (valueType : ValueType) : ColumnSpec :=
  ⟨name, valueType, none⟩

/-- The value is of the type, or null. -/
def valueMatches : TypedValue → ValueType → Bool
  | .null, _ => true
  | .bool _, .bool => true
  | .i64 _, .i64 => true
  | .text _, .text => true
  | .blob _, .blob => true
  | _, _ => false

/-- A default as a value. -/
def defaultAsValue : DefaultValue → TypedValue
  | .null => .null
  | .bool b => .bool b
  | .i64 n => .i64 n
  | .text s => .text s
  | .blob bs => .blob bs

/-- **A synced table.** -/
structure TableSpec where
  name : String
  specVersion : Nat
  pk : List ColumnSpec
  columns : List ColumnSpec
  localColumns : List String
  repoColumn : Option String
  /-- every physical column is classified exactly once -/
  classified : (pk.map (·.name) ++ columns.map (·.name) ++ localColumns).Nodup
  /-- a declared default is a value of its column's type -/
  defaultsTyped : ∀ c ∈ columns, ∀ a, c.added = some a →
    valueMatches (defaultAsValue a.default) c.valueType

/-- The position of the repo column within the key, if the table is scoped by one. -/
def TableSpec.repoPkIndex (spec : TableSpec) : Option Nat :=
  match spec.repoColumn with
  | none => none
  | some col => spec.pk.findIdx? (·.name == col)

/-- The summary of a memory's current note, one row per memory. -/
def memoryNoteSummaries : TableSpec where
  name := "memory_note_summaries"
  specVersion := 1
  pk := [.required "repo_id" .text, .required "memory_id" .text]
  columns := [.required "content_hash" .text, .required "summary" .text, .required "model_id" .text,
    .required "prompt_version" .text, .required "generated_at_ms" .i64]
  localColumns := []
  repoColumn := some "repo_id"
  classified := by decide
  defaultsTyped := by decide

/-- The local columns a new row of bindings clears. -/
def memoryBindingResetOnUpsert : List String :=
  ["resolved", "resolved_binding_id", "resolved_path", "resolved_start_line", "resolved_end_line",
    "resolved_symbol_kind", "resolved_signature_hash", "resolved_moniker_tool_version"]

/-- The local columns a winning upsert that changes a held row's synced columns resets to NULL. -/
def resetOnUpsert (spec : TableSpec) : List String :=
  if spec.name = "repo_memory_bindings" then memoryBindingResetOnUpsert else []

/-! ## 2. The after-image of an op's cells -/

/-- Why a stored entry is not projected into its table. -/
inductive PendingReason where
  | unknownColumn | newerSpecVersion | partialAfterImage | misstampedSpecVersion
  | unknownOpKind | undecodablePayload | tableNotInScope | noStreamContext
  | deferredIncarnationAuthority | unsupportedAccountControl
  | deferredUnsentEdit | deferredUnsentDelete | deferredUnreadableRow | deferredUnresolvedWinner
  deriving DecidableEq

/-- A complete after-image: every synced column with its value, in registry order. -/
abbrev Known := List (String × TypedValue)

/-- Cells, completed to the columns of this build. -/
inductive Projection where
  | complete (known : Known)
  | park (reason : PendingReason)
  | quarantine (why : String)
  deriving DecidableEq

section

variable (spec : TableSpec) (opSpecVersion : Nat)

/-- Why a cell cannot stand under its op's version: its column is unknown, or newer. -/
def cellGap (cell : Cell) : Option PendingReason :=
  match spec.columns.find? (·.name == cell.column) with
  | none => some .unknownColumn
  | some column =>
    match column.added with
    | some added => if opSpecVersion < added.inVersion then some .misstampedSpecVersion else none
    | none => none

/-- The value of one column: the op's own, or the declared default when the op predates it. -/
def columnValue (cells : List Cell) (column : ColumnSpec) :
    Except (PendingReason ⊕ String) (String × TypedValue) :=
  match cells.find? (·.column == column.name) with
  | some cell =>
    if valueMatches cell.value column.valueType then
      .ok (column.name, cell.value)
    else
      .error (.inr s!"cell `{cell.column}` value does not match declared type on `{spec.name}`")
  | none =>
    match column.added with
    | some added =>
      if opSpecVersion < added.inVersion then
        .ok (column.name, defaultAsValue added.default)
      else
        .error (.inl .partialAfterImage)
    | none => .error (.inl .partialAfterImage)

/-- **The cells of an op under this build's spec.** -/
def projectCells (cells : List Cell) : Projection :=
  if spec.specVersion < opSpecVersion then
    .park .newerSpecVersion
  else
    match cells.findSome? (cellGap spec opSpecVersion) with
    | some reason => .park reason
    | none =>
      match spec.columns.mapM (columnValue spec opSpecVersion cells) with
      | .ok known => .complete known
      | .error (.inl reason) => .park reason
      | .error (.inr why) => .quarantine why

end

/-! ## 3. The verdict on a payload -/

/-- What the payload says before the row is asked. -/
inductive PayloadVerdict where
  | rowDecides (known : Option Known)
  | gap (reason : PendingReason)
  | rejected (why : String)
  deriving DecidableEq

/-- The first key value that is not of its column's declared type. -/
def mistypedPk (spec : TableSpec) (pkVals : List TypedValue) : Option ColumnSpec :=
  ((spec.pk.zip pkVals).find? fun cv => !valueMatches cv.2 cv.1.valueType).map (·.1)

/-- Why a key is not addressable on this table, if it is not. -/
def pkRejection (spec : TableSpec) (repoId : String) (pkVals : List TypedValue) : Option String :=
  if pkVals.length ≠ spec.pk.length then
    some (s!"pk arity {pkVals.length} does not match `{spec.name}`'s {spec.pk.length} " ++
      "identity columns")
  else if pkVals.contains .null then
    some s!"a null primary-key value is not addressable on `{spec.name}`"
  else
    match mistypedPk spec pkVals with
    | some column =>
      some (s!"pk column `{column.name}` value does not match its declared type on " ++
        s!"`{spec.name}`")
    | none =>
      match spec.repoPkIndex with
      | some idx =>
        if pkVals[idx]? = some (.text repoId) then none
        else some s!"op names a different repo than the `{spec.name}` stream being synced"
      | none => none

/-- What stops a stated row from projecting, if anything does. -/
def statedRowVerdict (spec : TableSpec) (specVersion : Nat) (row : StatedRow) :
    Option PayloadVerdict :=
  match projectCells spec specVersion row.cells with
  | .complete _ => none
  | .park reason => some (.gap reason)
  | .quarantine why => some (.rejected why)

/-- An op whose column set this binary may not know yet: an upsert or a live-row restatement. -/
def RowOp.carriesCells : RowOp → Bool
  | .upsert .. | .restateRows .. => true
  | .remove .. | .restate .. => false

/-- The checks of an op, in order. -/
def payloadVerdict (spec : TableSpec) (repoId : String) (op : RowOp) : PayloadVerdict :=
  if op.carriesCells ∧ spec.specVersion < op.specVersion then
    .gap .newerSpecVersion
  else
    match op.pks.findSome? (pkRejection spec repoId) with
    | some why => .rejected why
    | none =>
      match op with
      | .remove .. | .restate .. => .rowDecides none
      | .restateRows _ specVersion rows =>
        (rows.findSome? (statedRowVerdict spec specVersion)).getD (.rowDecides none)
      | .upsert _ specVersion _ cells =>
        match projectCells spec specVersion cells with
        | .complete known => .rowDecides (some known)
        | .park reason => .gap reason
        | .quarantine why => .rejected why

/-! ## 4. What a payload that passes looks like -/

section

variable {spec : TableSpec} {repoId : String} {pk : List TypedValue} {op : RowOp}

/-- A key the table can address: right arity, no null, every value of its column's type. -/
def WellTyped (spec : TableSpec) (pk : List TypedValue) : Prop :=
  List.Forall₂ (fun c v => v ≠ .null ∧ valueMatches v c.valueType = true) spec.pk pk

/-- A complete after-image: one value of the declared type for every synced column, in order. -/
def Complete (spec : TableSpec) (known : Known) : Prop :=
  List.Forall₂ (fun c nv => nv.1 = c.name ∧ valueMatches nv.2 c.valueType = true) spec.columns known

theorem forall₂_of_mapM_ok {α β ε : Type} {f : α → Except ε β} {xs : List α} {ys : List β}
    (h : xs.mapM f = .ok ys) : List.Forall₂ (fun x y => f x = .ok y) xs ys := by
  induction xs generalizing ys with
  | nil =>
    simp only [mapM_nil] at h
    cases h
    exact .nil
  | cons x xs ih =>
    rw [mapM_cons] at h
    cases hx : f x with
    | error e => rw [hx] at h; cases h
    | ok y =>
      cases hxs : xs.mapM f with
      | error e => rw [hx, hxs] at h; cases h
      | ok zs =>
        rw [hx, hxs] at h
        cases h
        exact .cons hx (ih hxs)

theorem columnValue_iff :
    columnValue spec v cells c = .ok nv ↔
      (∃ cell, cells.find? (·.column == c.name) = some cell ∧ (c.name, cell.value) = nv ∧
        valueMatches cell.value c.valueType = true) ∨
      cells.find? (·.column == c.name) = none ∧ ∃ a, c.added = some a ∧ v < a.inVersion ∧
        (c.name, defaultAsValue a.default) = nv := by
  unfold columnValue
  cases cells.find? (·.column == c.name) with
  | some cell =>
    by_cases hty : valueMatches cell.value c.valueType = true
    · simp [hty]
    · simp [hty]
  | none =>
    cases c.added with
    | none => simp
    | some a =>
      by_cases hlt : v < a.inVersion
      · simp [hlt]
      · simp [hlt]

theorem columnValue_ok (hc : c ∈ spec.columns) (h : columnValue spec v cells c = .ok nv) :
    nv.1 = c.name ∧ valueMatches nv.2 c.valueType = true := by
  rcases columnValue_iff.mp h with ⟨cell, -, rfl, hty⟩ | ⟨-, a, ha, -, rfl⟩
  · exact ⟨rfl, hty⟩
  · exact ⟨rfl, spec.defaultsTyped c hc a ha⟩

theorem projectCells_iff :
    projectCells spec v cells = .complete known ↔ v ≤ spec.specVersion ∧
      (∀ cell ∈ cells, cellGap spec v cell = none) ∧
        spec.columns.mapM (columnValue spec v cells) = .ok known := by
  unfold projectCells
  rw [← findSome?_eq_none_iff]
  split
  · simp_all
  · cases cells.findSome? (cellGap spec v) with
    | some reason => simp
    | none => rcases spec.columns.mapM (columnValue spec v cells) with (_ | _) | _ <;> simp_all

theorem complete_of_projectCells (h : projectCells spec v cells = .complete known) :
    Complete spec known := by
  have hf := forall₂_of_mapM_ok (projectCells_iff.mp h).2.2
  exact List.forall₂_iff_get.mpr ⟨hf.length_eq, fun i h₁ h₂ =>
    columnValue_ok (get_mem _ _) (hf.get h₁ h₂)⟩

theorem wellTyped_of_pkRejection (h : pkRejection spec repoId pk = none) : WellTyped spec pk := by
  unfold pkRejection at h
  split at h
  · cases h
  rename_i hlen
  split at h
  · cases h
  rename_i hnull
  split at h
  · cases h
  rename_i hmis
  have hlen' : spec.pk.length = pk.length := (not_not.mp hlen).symm
  simp only [mistypedPk, Option.map_eq_none_iff, find?_eq_none] at hmis
  refine List.forall₂_iff_zip.mpr ⟨hlen', fun {c v} hcv => ⟨?_, ?_⟩⟩
  · rintro rfl
    exact hnull (contains_iff_mem.mpr (of_mem_zip hcv).2)
  · simpa using hmis (c, v) hcv

theorem wellTyped_of_payloadVerdict {known : Option Known}
    (h : payloadVerdict spec repoId op = .rowDecides known)
    (hpk : pk ∈ op.pks) : WellTyped spec pk := by
  unfold payloadVerdict at h
  split at h
  · cases h
  · split at h
    · cases h
    · rename_i hrej
      exact wellTyped_of_pkRejection (findSome?_eq_none_iff.mp hrej pk hpk)

/-- **The verdict pairs an after-image with an upsert only**, and every row a restatement carries
    has one. -/
theorem payloadVerdict_known {known : Option Known}
    (h : payloadVerdict spec repoId op = .rowDecides known) :
    match op with
    | .upsert _ v _ cells => ∃ k, known = some k ∧ projectCells spec v cells = .complete k
    | .remove .. | .restate .. => known = none
    | .restateRows _ v rows =>
      known = none ∧ ∀ row ∈ rows, ∃ k, projectCells spec v row.cells = .complete k := by
  unfold payloadVerdict at h
  split at h
  · cases h
  split at h
  · cases h
  cases op with
  | upsert t v pk cells =>
    cases hp : projectCells spec v cells with
    | complete k =>
      simp only [hp, PayloadVerdict.rowDecides.injEq] at h
      exact ⟨k, h.symm, hp⟩
    | park reason => simp only [hp] at h; cases h
    | quarantine why => simp only [hp] at h; cases h
  | remove t v pk => cases h; rfl
  | restate t v deletes => cases h; rfl
  | restateRows t v rows =>
    simp only at h
    cases hf : rows.findSome? (statedRowVerdict spec v) with
    | some verdict =>
      -- a stated row that stops the batch never answers `rowDecides`
      obtain ⟨row, -, hrow⟩ := exists_of_findSome?_eq_some hf
      rw [hf, Option.getD_some] at h
      subst h
      unfold statedRowVerdict at hrow
      split at hrow <;> cases hrow
    | none =>
      rw [hf, Option.getD_none] at h
      cases h
      refine ⟨rfl, fun row hrow => ?_⟩
      have hnone := findSome?_eq_none_iff.mp hf row hrow
      unfold statedRowVerdict at hnone
      split at hnone
      · exact ⟨_, ‹_›⟩
      · cases hnone
      · cases hnone

/-! ## 5. A table that evolves -/

/-- **Additive evolution**: the columns stay, and a new one has a default and a later version. -/
structure Evolves (old new : TableSpec) : Prop where
  version : old.specVersion ≤ new.specVersion
  kept : ∀ c ∈ old.columns, c ∈ new.columns
  within : ∀ c ∈ old.columns, ∀ a, c.added = some a → a.inVersion ≤ old.specVersion
  added : ∀ c ∈ new.columns, c ∉ old.columns → ∃ a, c.added = some a ∧ old.specVersion < a.inVersion

/-- The cells an after-image is authored again with. -/
def cellsOf (known : Known) : List Cell := known.map fun nv => ⟨nv.1, nv.2⟩

theorem TableSpec.eq_of_name (spec : TableSpec) (hc : c ∈ spec.columns) (hc' : c' ∈ spec.columns)
    (h : c.name = c'.name) : c = c' :=
  inj_on_of_nodup_map (nodup_append.mp (nodup_append.mp spec.classified).1).2.1 hc hc' h

theorem cellGap_eq_none_iff : cellGap spec v cell = none ↔
    ∃ c ∈ spec.columns, c.name = cell.column ∧ ∀ a, c.added = some a → a.inVersion ≤ v := by
  unfold cellGap
  cases hfind : spec.columns.find? (·.name == cell.column) with
  | none =>
    refine iff_of_false (nofun) fun ⟨c, hc, hname, _⟩ => ?_
    exact find?_eq_none.mp hfind c hc (beq_iff_eq.mpr hname)
  | some column =>
    have hmem := mem_of_find?_eq_some hfind
    have hname : column.name = cell.column := by simpa using find?_some hfind
    trans ∀ a, column.added = some a → a.inVersion ≤ v
    · cases hadded : column.added <;> simp [hadded]
    · refine ⟨fun h => ⟨column, hmem, hname, h⟩, fun ⟨c, hc, hc', h⟩ => ?_⟩
      rwa [spec.eq_of_name hmem hc (hname.trans hc'.symm)]

theorem mapM_agree {α β ε : Type} {f g : α → Except ε β} {xs : List α}
    (h : ∀ x ∈ xs, ∃ y, f x = .ok y ∧ g x = .ok y) :
    ∃ ys, xs.mapM f = .ok ys ∧ xs.mapM g = .ok ys := by
  induction xs with
  | nil => exact ⟨[], rfl, rfl⟩
  | cons x xs ih =>
    obtain ⟨⟨y, hf, hg⟩, hrest⟩ := forall_mem_cons.mp h
    obtain ⟨ys, hfs, hgs⟩ := ih hrest
    exact ⟨y :: ys, by rw [mapM_cons, hf, hfs]; rfl, by rw [mapM_cons, hg, hgs]; rfl⟩

theorem mem_of_mapM_ok {α β ε : Type} {f : α → Except ε β} {xs : List α} {ys : List β}
    (h : xs.mapM f = .ok ys) :
    (∀ x ∈ xs, ∃ y ∈ ys, f x = .ok y) ∧ ∀ y ∈ ys, ∃ x ∈ xs, f x = .ok y := by
  have hf := forall₂_of_mapM_ok h
  clear h
  induction hf with
  | nil => exact ⟨nofun, nofun⟩
  | cons hxy _ ih =>
    simp only [mem_cons, forall_eq_or_imp, exists_eq_or_imp]
    exact ⟨⟨.inl hxy, fun x hx => .inr (ih.1 x hx)⟩, .inl hxy, fun y hy => .inr (ih.2 y hy)⟩

section

variable {old new : TableSpec} {v : Nat} {cells : List Cell}

theorem Evolves.cellGap (h : Evolves old new) (hv : v ≤ old.specVersion) :
    cellGap new v cell = none ↔ cellGap old v cell = none := by
  simp only [cellGap_eq_none_iff]
  refine ⟨fun ⟨c, hc, hcell⟩ => ⟨c, ?_, hcell⟩, fun ⟨c, hc, hcell⟩ => ⟨c, h.kept c hc, hcell⟩⟩
  by_contra hold
  obtain ⟨a, ha, hlt⟩ := h.added c hc hold
  exact absurd ((hcell.2 a ha).trans hv) hlt.not_ge

theorem Evolves.columnValue (h : Evolves old new) (hp : projectCells old v cells = .complete known)
    (hc : c ∈ new.columns) :
    ∃ nv, columnValue new v cells c = .ok nv ∧
      columnValue new old.specVersion (cellsOf known) c = .ok nv := by
  obtain ⟨hv, hgap, hmap⟩ := projectCells_iff.mp hp
  obtain ⟨hvalue, hnamed⟩ := mem_of_mapM_ok hmap
  by_cases hold : c ∈ old.columns
  · obtain ⟨nv, hnv, hval⟩ := hvalue c hold
    obtain ⟨hname, hty⟩ := columnValue_ok hold hval
    refine ⟨nv, columnValue_iff.mpr (columnValue_iff.mp hval), columnValue_iff.mpr (.inl ?_)⟩
    cases hfind : (cellsOf known).find? (·.column == c.name) with
    | none => exact absurd (beq_iff_eq.mpr hname) (find?_eq_none.mp hfind _ (mem_map_of_mem hnv))
    | some cell =>
      -- the names of an after-image are distinct
      obtain ⟨nv', hnv', rfl⟩ := mem_map.mp (mem_of_find?_eq_some hfind)
      obtain ⟨c', hc', hval'⟩ := hnamed nv' hnv'
      have hname' : nv'.1 = c.name := by simpa using find?_some hfind
      obtain rfl := old.eq_of_name hc' hold ((columnValue_ok hc' hval').1.symm.trans hname')
      cases hval.symm.trans hval'
      exact ⟨_, rfl, Prod.ext hname.symm rfl, hty⟩
  · -- a new column: neither names it, and both came before it
    obtain ⟨a, ha, hlt⟩ := h.added c hc hold
    have hno : ∀ c' ∈ old.columns, c'.name ≠ c.name := fun c' hc' hname =>
      hold (new.eq_of_name (h.kept c' hc') hc hname ▸ hc')
    refine ⟨_, columnValue_iff.mpr (.inr ⟨find?_eq_none.mpr fun cell hcell heq => ?_, a, ha,
      hv.trans_lt hlt, rfl⟩), columnValue_iff.mpr (.inr ⟨find?_eq_none.mpr fun cell hcell heq => ?_,
      a, ha, hlt, rfl⟩)⟩
    · obtain ⟨c', hc', hname, -⟩ := cellGap_eq_none_iff.mp (hgap cell hcell)
      exact hno c' hc' (hname.trans (beq_iff_eq.mp heq))
    · obtain ⟨nv, hnv, rfl⟩ := mem_map.mp hcell
      obtain ⟨c', hc', hval⟩ := hnamed nv hnv
      exact hno c' hc' ((columnValue_ok hc' hval).1.symm.trans (beq_iff_eq.mp heq))

/-- **The projection composes**: the new spec completes an op to the after-image it gives the old
    spec's after-image authored again, and a default stands only for a column added after the op. -/
theorem projection_composes (h : Evolves old new) (hv : v ≤ old.specVersion) (image : Known) :
    (projectCells new v cells = .complete image ↔ ∃ known, projectCells old v cells = .complete known ∧
      projectCells new old.specVersion (cellsOf known) = .complete image) ∧
    (projectCells new v cells = .complete image → ∀ c ∈ new.columns, ∀ x, (c.name, x) ∈ image →
      (∃ cell ∈ cells, cell.column = c.name ∧ cell.value = x) ∨
        ∃ a, c.added = some a ∧ v < a.inVersion ∧ defaultAsValue a.default = x) := by
  have hdown : ∀ {known}, projectCells old v cells = .complete known → ∃ i,
      projectCells new v cells = .complete i ∧
        projectCells new old.specVersion (cellsOf known) = .complete i := by
    intro known hp
    obtain ⟨-, hgap, hmap⟩ := projectCells_iff.mp hp
    obtain ⟨i, hdirect, hagain⟩ := mapM_agree fun c hc => h.columnValue hp hc
    refine ⟨i, projectCells_iff.mpr ⟨hv.trans h.version, fun cell hcell =>
      (h.cellGap hv).mpr (hgap cell hcell), hdirect⟩,
      projectCells_iff.mpr ⟨h.version, fun cell hcell => ?_, hagain⟩⟩
    obtain ⟨nv, hnv, rfl⟩ := mem_map.mp hcell
    obtain ⟨c, hc, hval⟩ := (mem_of_mapM_ok hmap).2 nv hnv
    exact cellGap_eq_none_iff.mpr ⟨c, h.kept c hc, (columnValue_ok hc hval).1.symm, h.within c hc⟩
  refine ⟨⟨fun hp => ?_, fun ⟨known, hold, hnew⟩ => ?_⟩, fun hp c hc x hx => ?_⟩
  · obtain ⟨-, hgap, hmap⟩ := projectCells_iff.mp hp
    obtain ⟨known, hknown, -⟩ := mapM_agree fun c hc => by
      obtain ⟨nv, -, hval⟩ := (mem_of_mapM_ok hmap).1 c (h.kept c hc)
      have hval : columnValue old v cells c = .ok nv := columnValue_iff.mpr (columnValue_iff.mp hval)
      exact ⟨nv, hval, hval⟩
    have hold : projectCells old v cells = .complete known :=
      projectCells_iff.mpr ⟨hv, fun cell hcell => (h.cellGap hv).mp (hgap cell hcell), hknown⟩
    obtain ⟨i, hdirect, hagain⟩ := hdown hold
    cases hdirect.symm.trans hp
    exact ⟨known, hold, hagain⟩
  · obtain ⟨i, hdirect, hagain⟩ := hdown hold
    cases hagain.symm.trans hnew
    exact hdirect
  · obtain ⟨c', hc', hval⟩ := (mem_of_mapM_ok (projectCells_iff.mp hp).2.2).2 _ hx
    obtain rfl := new.eq_of_name hc' hc (columnValue_ok hc' hval).1.symm
    rcases columnValue_iff.mp hval with ⟨cell, hfind, heq, -⟩ | ⟨-, a, ha, hlt, heq⟩
    · exact .inl ⟨cell, mem_of_find?_eq_some hfind, by simpa using find?_some hfind,
        congrArg Prod.snd heq⟩
    · exact .inr ⟨a, ha, hlt, congrArg Prod.snd heq⟩

theorem projection_composes_default : ∃ known, projectCells
      ⟨"t", 1, [], [.required "a" .i64], [], none, by decide, by decide⟩ 1 [⟨"a", .i64 5⟩] = .complete known ∧
    projectCells ⟨"t", 2, [], [.required "a" .i64, ⟨"b", .bool, some ⟨2, .bool true⟩⟩], [], none,
      by decide, by decide⟩ 1 (cellsOf known) = .complete [("a", .i64 5), ("b", .bool true)] :=
  (projection_composes ⟨by decide, by decide, by decide, by decide⟩ (by decide) _).1.mp rfl

end

end

end RagRat.TableSync
