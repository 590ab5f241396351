import EseReader.Database
import EseReader.Proofs.Catalog.Independence
import EseReader.Proofs.Catalog.RoundTrip
import EseReader.Proofs.LongValue.Open
import EseReader.Proofs.Page.Image
import EseReader.Proofs.Source.File

/-!
# `EseReader/Proofs/Database.lean` — from a file to its records

Here the parts are put together. A file is a sequence of blocks, and one of them is the root of the
catalog. What the catalog stores are rows, each of which describes an entry; the entries say which
tables there are and in what columns their rows are read; and a table is a tree again.

The other side is what somebody has written: a `FileImage`, an `EntryImage` for each row of the
catalog and a `RowImage` for each row of a table. `Forest.Stores` is what joins them to the pages: the
tree at a root can be read from end to end, and holds the bytes of these rows in this order. Then a
database can be opened, **its tables are those the entries describe, and the records of a table are
the rows that were written**, in the order of their keys (`ofRequest_bytes`). A column that only refers to a
long value is followed into one tree more (`longValue_eq`).
-/

set_option autoImplicit false

namespace EseReader

/-! ## Trees with rows in them -/

/-- The tree at `root` can be read from end to end, and `rows` are what it holds. -/
structure Forest.Stores (forest : Forest) (root : PageNumber) (rows : List Bytes) : Prop where
  ordered : forest.IsOrdered .forward maxDepth root
  ends : ∀ entries ∈ forest.branchesBelow maxDepth root, EndsOpen entries
  chained : Chained (forest.leavesBelow maxDepth root)
  counted : ∀ leaf ∈ forest.leavesBelow maxDepth root, leaf.page < forest.source.pageCount
  rows : (forest.valuesBelow maxDepth root).map (·.data) = rows

instance {forest : Forest} {root : PageNumber} {rows : List Bytes} :
    Decidable (forest.Stores root rows) :=
  decidable_of_iff
    (forest.IsOrdered .forward Forest.maxDepth root ∧
      (∀ entries ∈ forest.branchesBelow Forest.maxDepth root, EndsOpen entries) ∧
      Chained (forest.leavesBelow Forest.maxDepth root) ∧
      (∀ leaf ∈ forest.leavesBelow Forest.maxDepth root, leaf.page < forest.source.pageCount) ∧
      (forest.valuesBelow Forest.maxDepth root).map (·.data) = rows)
    ⟨fun ⟨hordered, hends, hchained, hcounted, hrows⟩ =>
        ⟨hordered, hends, hchained, hcounted, hrows⟩,
      fun h => ⟨h.ordered, h.ends, h.chained, h.counted, h.rows⟩⟩

namespace Catalog

variable {forest : Forest} {images : List EntryImage}

/-- An image with one of the five type codes. -/
def EntryImage.isKnown (image : EntryImage) : Bool := decide (1 ≤ image.code ∧ image.code ≤ 5)

theorem EntryImage.isKnown_iff {image : EntryImage} :
    image.isKnown = true ↔ 1 ≤ image.code ∧ image.code ≤ 5 :=
  decide_eq_true_iff

/-- Rows of other types are left out, and the others are the entries in the same order. -/
theorem forall₂_describes (hfits : ∀ image ∈ images, image.Fits) (format : Format) :
    List.Forall₂ EntryImage.Describes (images.filter (·.isKnown))
      (images.filterMap fun image => (entryOfRow image.bytes format).toOption) := by
  induction images with
  | nil => exact .nil
  | cons image images ih =>
    obtain ⟨himage, himages⟩ := List.forall_mem_cons.mp hfits
    by_cases hknown : image.isKnown = true
    · obtain ⟨entry, hentry⟩ := EntryImage.exists_describes (EntryImage.isKnown_iff.mp hknown)
      have hrow := (EntryImage.entryOfRow_eq_ok_iff himage format).mpr hentry
      rw [List.filter_cons_of_pos hknown, List.filterMap_cons, hrow]
      exact .cons hentry (ih himages)
    · have hrow := EntryImage.entryOfRow_eq_error himage format (mt EntryImage.isKnown_iff.mpr hknown)
      rw [List.filter_cons_of_neg hknown, List.filterMap_cons, hrow]
      exact ih himages

/-- **The tables that are loaded are those that the rows of the catalog describe.** -/
theorem load_eq (hstores : forest.Stores rootPage (images.map (·.bytes)))
    (hfits : ∀ image ∈ images, image.Fits) :
    ∃ entries, List.Forall₂ EntryImage.Describes (images.filter (·.isKnown)) entries ∧
      load forest = .ok (tablesOf entries) := by
  obtain ⟨cursor, hcursor, hvalues⟩ :=
    Forest.values_leaves hstores.ordered hstores.ends hstores.chained hstores.counted
  refine ⟨_, forall₂_describes hfits forest.format, ?_⟩
  have hentries : (forest.valuesBelow Forest.maxDepth rootPage).filterMap
        (fun value => (entryOfRow value.data forest.format).toOption) =
      images.filterMap fun image => (entryOfRow image.bytes forest.format).toOption := by
    have hrows := congrArg (·.filterMap fun row => (entryOfRow row forest.format).toOption)
      hstores.rows
    simpa only [List.filterMap_map, Function.comp_def] using hrows
  rw [load, hcursor]
  show ((forest.values cursor).value >>= fun values => _) = _
  rw [hvalues, ← hentries]
  rfl

end Catalog

/-! ## The records of a table -/

/-- Two lists that agree item by item in what is asked of them. -/
theorem map_eq_map_of_forall₂ {α β γ : Type} {f : α → γ} {g : β → γ} {items : List α}
    {others : List β} (h : List.Forall₂ (fun item other => f item = g other) items others) :
    items.map f = others.map g := by
  rw [← List.forall₂_eq_eq_eq, List.forall₂_map_left_iff, List.forall₂_map_right_iff]
  exact h

/-- The record that is read of a row. -/
def RowImage.record (image : RowImage) (schema : RecordSchema) (format : Format)
    (codepages : Codepages) : Record :=
  ⟨image.bytes schema format, schema, codepages, schema.columns.map image.slot⟩

theorem RowImage.slot_record {image : RowImage} {schema : RecordSchema} {index : Nat}
    {column : SchemaEntry} (h : schema.column? index = some column) (format : Format)
    (codepages : Codepages) :
    (image.record schema format codepages).slot index = .ok (image.slot column) := by
  have hcolumn : schema.columns[index]? = some column := h
  rw [Record.slot, Record.column, record, h]
  show Except.ok (schema.columns.map image.slot)[index]?.join = _
  rw [List.getElem?_map, hcolumn]
  rfl

namespace Database

variable {database : Database} {table : TableDefinition} {rows : List RowImage}

/-- The records of rows that stand where the values of a table's tree stand. -/
def foundAt (database : Database) (table : TableDefinition) (rows : List RowImage) : List Found :=
  List.zipWith
    (fun value row => ⟨value.key, value.location,
      row.record table.schema database.forest.format database.codepages⟩)
    (database.forest.valuesBelow Forest.maxDepth table.root) rows

/-- The tree of a table stores these rows, and each of them fits the schema. -/
structure Holds (database : Database) (table : TableDefinition) (rows : List RowImage) : Prop where
  stores : database.forest.Stores table.root
    (rows.map (·.bytes table.schema database.forest.format))
  fits : ∀ row ∈ rows, row.Fits table.schema database.forest.format

theorem recordOf_eq {value : LeafValue} {row : RowImage}
    (hfits : row.Fits table.schema database.forest.format)
    (hdata : value.data = row.bytes table.schema database.forest.format) :
    database.recordOf table value = .ok ⟨value.key, value.location,
      row.record table.schema database.forest.format database.codepages⟩ := by
  rw [recordOf, hdata, Record.ofRow, RowImage.slots_bytes hfits]
  rfl

theorem key_of_recordOf {value : LeafValue} {found : Found}
    (h : database.recordOf table value = .ok found) : found.key = value.key := by
  obtain ⟨record, -, rfl⟩ := map_eq_ok_iff.mp h
  rfl

theorem Holds.forall₂_recordOf (h : database.Holds table rows) :
    List.Forall₂ (fun value found => database.recordOf table value = .ok found)
      (database.forest.valuesBelow Forest.maxDepth table.root) (database.foundAt table rows) := by
  obtain ⟨⟨_, _, _, _, hrows⟩, hfits⟩ := h
  rw [foundAt]
  generalize database.forest.valuesBelow Forest.maxDepth table.root = values at hrows ⊢
  induction values generalizing rows with
  | nil => exact .nil
  | cons value values ih =>
    cases rows with
    | nil => cases hrows
    | cons row rows =>
      obtain ⟨hdata, hrows⟩ := List.cons.inj hrows
      obtain ⟨hrow, hfits⟩ := List.forall_mem_cons.mp hfits
      exact .cons (recordOf_eq hrow hdata) (ih hfits hrows)

/-- **The records are the rows**, and so are those that are read if a limit is given, up to it. -/
theorem Holds.records_eq (h : database.Holds table rows) (limit : Nat) :
    database.records table limit = .ok (((database.foundAt table rows).take limit).map .ok) := by
  obtain ⟨cursor, hcursor, hitems⟩ :=
    Forest.allItems_leaves h.stores.ordered h.stores.ends h.stores.chained h.stores.counted
  have hrecords : (database.forest.valuesBelow Forest.maxDepth table.root).map
      (database.recordOf table) = (database.foundAt table rows).map .ok :=
    map_eq_map_of_forall₂ h.forall₂_recordOf
  rw [records, hcursor]
  show Except.ok ((database.forest.items limit cursor).value.map _) = _
  rw [Forest.value_items, hitems, List.map_take, List.map_map, List.map_take, ← hrecords]
  rfl

/-- The record under a key is the first one in the order of the keys. -/
theorem Holds.find_eq (h : database.Holds table rows) (key : Key) :
    database.find table key = .ok ((database.foundAt table rows).find? (·.key == key)) := by
  have hfound := h.forall₂_recordOf
  rw [find, Forest.value_find h.stores.ordered]
  generalize database.forest.valuesBelow Forest.maxDepth table.root = values at hfound ⊢
  generalize database.foundAt table rows = found at hfound ⊢
  induction hfound with
  | nil => rfl
  | @cons value found values others hrecord _ ih =>
    rw [List.find?_cons, List.find?_cons, key_of_recordOf hrecord]
    cases value.key == key with
    | false => exact ih
    | true =>
      show (database.recordOf table value).map some = _
      rw [hrecord]
      rfl

theorem Holds.record_foundAt (h : database.Holds table rows) :
    (database.foundAt table rows).map (·.record) =
      rows.map (·.record table.schema database.forest.format database.codepages) := by
  have hlength := congrArg List.length h.stores.rows
  rw [List.length_map, List.length_map] at hlength
  refine List.ext_getElem ?_ fun index _ _ => ?_
  · rw [foundAt, List.length_map, List.length_zipWith, List.length_map, hlength, Nat.min_self]
  · simp only [foundAt, List.getElem_map, List.getElem_zipWith]

theorem Holds.sorted_foundAt (h : database.Holds table rows) :
    ((database.foundAt table rows).map (·.key)).Pairwise KeyOrder.forward.Le := by
  have hkeys : (database.forest.valuesBelow Forest.maxDepth table.root).map (·.key) =
      (database.foundAt table rows).map (·.key) :=
    map_eq_map_of_forall₂ (h.forall₂_recordOf.imp fun _ _ hrecord =>
      (key_of_recordOf hrecord).symm)
  rw [← hkeys, List.pairwise_map]
  exact h.stores.ordered.sorted

/-- **The long value of a column** is what the tree of the table's long values says about the
identifier that stands in the row, which is stored there with its last byte first. -/
theorem longValue_eq {row : RowImage} {index : Nat} {column : SchemaEntry} {value : StoredValue}
    {root : PageNumber} (hroot : table.longValueRoot? = some root)
    (htree : database.forest.IsLongValueTree root)
    (hcolumn : table.schema.column? index = some column) (hvalue : row.slot column = some value)
    (hlong : value.isLongValue = true) (hdata : value.data.length = 4) (format : Format)
    (codepages : Codepages) :
    database.longValue table (row.record table.schema format codepages) index =
      (LongValueKey.mk value.data.reverse).outcome
        (database.forest.valuesBelow Forest.maxDepth root) := by
  have hlength : value.data.reverse.length = 4 := List.length_reverse.trans hdata
  have hkey : LongValueKey.ofStored value.data = .ok ⟨value.data.reverse⟩ := by
    rw [LongValueKey.ofStored, Bytes.exactly, if_pos hdata]
    rfl
  have hrefused : ¬(!value.isLongValue) = true := by
    rw [hlong]
    exact Bool.false_ne_true
  rw [longValue, RowImage.slot_record hcolumn, hvalue, hroot]
  show (if (!value.isLongValue) = true then _ else
    LongValueKey.ofStored value.data >>= fun key => (database.forest.longValue root key).value) = _
  rw [if_neg hrefused, hkey]
  exact Forest.value_longValue htree hlength

/-! ## Tables by name -/

/-- Tables of which no two have the same name are found by it. -/
theorem table?_eq_some_iff {entries : List SchemaEntry} (hdistinct : Catalog.Distinct entries)
    (htables : database.tables = Catalog.tablesOf entries) {name : String} :
    database.table? name = some table ↔
      ∃ entry ∈ Catalog.tables entries,
        entry.name = name ∧ Catalog.definition entries entry = table := by
  have hname : (·.name == name) ∘ Catalog.definition entries =
      fun entry : SchemaEntry => entry.name == name := rfl
  rw [table?, htables, hdistinct.tablesOf_eq, List.find?_map, Option.map_eq_some_iff]
  simp only [hname, Catalog.find?_name_eq_some_iff hdistinct.names, and_assoc]

/-! ## Opening -/

variable {read : String → Option Bytes} {request : OpenRequest} {path : String}

/-- What a request makes of an origin: the pages as they are or behind the test of their checksums,
in the dialect of the origin or in the one that is asked for. -/
def Origin.forest (origin : Origin) (request : OpenRequest) : Forest :=
  let format := request.format.getD origin.format
  ⟨if request.verifyChecksums then origin.source.verified format else origin.source, format⟩

theorem ofRequest_eq {origin : Origin} {tables : List TableDefinition}
    (horigin : Database.origin read request = .ok origin)
    (hload : Catalog.load (origin.forest request) = .ok tables) :
    ofRequest read request =
      .ok ⟨origin.forest request, origin.header, request.codepages, tables⟩ := by
  rw [ofRequest, horigin]
  show (Catalog.load (origin.forest request) >>= fun tables => _) = _
  rw [hload]
  rfl

/-- A file as an origin of pages. -/
def ofFile (file : FileImage) : Origin := ⟨file.source, some file.fields, file.fields.format⟩

theorem origin_bytes {file : FileImage} (h : file.Fits) (hread : read path = some file.bytes)
    (hpath : request.path = some path) (hpages : request.pages = none)
    (hverify : request.verifyChecksums = true → file.fields.verifyChecksum file.header = .ok ()) :
    Database.origin read request = .ok (ofFile file) := by
  rw [origin, hpath, hpages]
  show originOfFile read path request.verifyChecksums = _
  rw [originOfFile, hread, FileImage.ofContent_bytes h]
  show (if request.verifyChecksums then _ else _) = _
  split
  case isTrue htested =>
    rw [FileImage.headerBlock_opened h, FileImage.source_opened h]
    show (file.fields.verifyChecksum file.header >>= fun _ => _) = _
    rw [hverify htested]
    rfl
  case isFalse =>
    rw [FileImage.source_opened h]
    rfl

/-- **From the bytes of a file to its records.** A file whose catalog stores the rows of `images` is
opened, with or without the test of checksums, in its own dialect or another one. Its tables are those
that the entries describe, and if they can be told apart, each is found by its name. Whatever rows a
table holds, its records are these rows: each once, in the order of the keys, as many as are asked
for; and under a key the first one of them is found. -/
theorem ofRequest_bytes {file : FileImage} {images : List Catalog.EntryImage} (hfile : file.Fits)
    (hread : read path = some file.bytes) (hpath : request.path = some path)
    (hpages : request.pages = none)
    (hverify : request.verifyChecksums = true → file.fields.verifyChecksum file.header = .ok ())
    (hcatalog : ((ofFile file).forest request).Stores Catalog.rootPage (images.map (·.bytes)))
    (himages : ∀ image ∈ images, image.Fits) :
    ∃ database entries, ofRequest read request = .ok database ∧
      database.header = some file.fields ∧ database.forest = (ofFile file).forest request ∧
      List.Forall₂ Catalog.EntryImage.Describes (images.filter (·.isKnown)) entries ∧
      database.tables = (Catalog.tablesAt entries).map (Catalog.definitionAt entries) ∧
      (Catalog.Distinct entries → ∀ name table, database.table? name = some table ↔
        ∃ entry ∈ Catalog.tables entries,
          entry.name = name ∧ Catalog.definition entries entry = table) ∧
      ∀ table rows, database.Holds table rows →
        (∀ limit, database.records table limit =
          .ok (((database.foundAt table rows).take limit).map .ok)) ∧
        (∀ key, database.find table key =
          .ok ((database.foundAt table rows).find? (·.key == key))) ∧
        (database.foundAt table rows).map (·.record) =
          rows.map (·.record table.schema database.forest.format request.codepages) ∧
        ((database.foundAt table rows).map (·.key)).Pairwise KeyOrder.forward.Le := by
  obtain ⟨entries, hentries, hload⟩ := Catalog.load_eq hcatalog himages
  have horigin := origin_bytes hfile hread hpath hpages hverify
  refine ⟨_, entries, ofRequest_eq horigin hload, rfl, rfl, hentries, Catalog.tablesOf_eq entries,
    fun hdistinct name table => table?_eq_some_iff hdistinct rfl, fun table rows hholds => ?_⟩
  exact ⟨hholds.records_eq, hholds.find_eq, hholds.record_foundAt, hholds.sorted_foundAt⟩

/-! ### A file with one table

Page 4 is the catalog: a table, a row of a type that is not known, and a column. Page 5 is the table,
with one row. A byte behind the last block belongs to no page. -/

def sampleImage (code : UInt16) (identifier pageOrType : UInt32) (name : Catalog.PaddedText) :
    Catalog.EntryImage where
  owner := 10
  code := code
  identifier := identifier
  pageOrType := pageOrType
  size := 0
  flags := 0
  pagesOrLocale := 0
  rootFlag := 0
  recordOffset := 0
  mapFlags := 0
  keyMost := 0
  chunkMax := 0
  lastFixed := 5
  name := some name
  statistics := none
  template := none
  default := none
  later := []
  variableCount := 1
  tail := []

def sampleImages : List Catalog.EntryImage :=
  [ sampleImage 1 10 5 ⟨[0x54], 0, by decide⟩, sampleImage 9 7 0 ⟨[0x3f], 1, by decide⟩,
    sampleImage 2 1 4 ⟨[0x69, 0x64], 0, by decide⟩ ]

def sampleTableEntry : SchemaEntry := ⟨10, 10, .table 5, 0, 0, "T", none, none⟩

def sampleColumn : SchemaEntry := ⟨1, 10, .column 4 0, 0, 0, "id", none, none⟩

def sampleEntries : List SchemaEntry := [sampleTableEntry, sampleColumn]

def sampleTable : TableDefinition := .collect sampleTableEntry [sampleColumn]

def sampleRow : RowImage where
  lastFixed := 1
  fixed := fun _ => [42, 0, 0, 0]
  variableValues := []
  tagged := []

/-- A leaf with these rows under the keys 0, 1, and so on. -/
def sampleLeaf (rows : List Bytes) : PageImage where
  size := 2048
  extended := false
  flags := 0x2
  previous := 0
  next := 0
  values := ⟨0, []⟩ :: rows.zipIdx.map fun row => ValueImage.plain [UInt8.ofNat row.2] row.1

def sampleFile : FileImage where
  header := zeros 4 ++ leBytes 4 FileHeader.fileSignature.toNat ++
    leBytes 4 Format.currentVersion.toNat ++ zeros 220 ++ leBytes 4 0x14 ++ leBytes 4 2048 ++
    zeros 1808
  shadow := zeros 2048
  pages := [zeros 2048, zeros 2048, zeros 2048, (sampleLeaf (sampleImages.map (·.bytes))).bytes,
    (sampleLeaf [sampleRow.bytes sampleTable.schema .standard]).bytes]
  tail := [0xff]

/-- There is no other file. -/
def sampleRead (path : String) : Option Bytes :=
  if path = "sample.edb" then some sampleFile.bytes else none

def sampleRequest : OpenRequest := { path := some "sample.edb" }

def sampleForest : Forest := (ofFile sampleFile).forest sampleRequest

theorem sampleFile_fits : sampleFile.Fits := by decide +kernel

theorem stores_sampleImages :
    sampleForest.Stores Catalog.rootPage (sampleImages.map (·.bytes)) := by
  decide +kernel

theorem sampleImages_fit : ∀ image ∈ sampleImages, image.Fits := by
  simp only [sampleImages, List.forall_mem_cons]
  refine ⟨?_, ?_, ?_, List.forall_mem_nil _⟩
  all_goals exact
    { le_lastFixed := by decide
      lastFixed_le := by decide
      unstored := by decide
      variableCount := by decide
      variableLength := by decide }

theorem describes_sampleEntries :
    List.Forall₂ Catalog.EntryImage.Describes (sampleImages.filter (·.isKnown)) sampleEntries := by
  have hread {image : Catalog.EntryImage} {entry : SchemaEntry} (himage : image ∈ sampleImages)
      (hentry : Catalog.entryOfRow image.bytes .standard = .ok entry) : image.Describes entry :=
    (Catalog.EntryImage.entryOfRow_eq_ok_iff (sampleImages_fit image himage) .standard).mp hentry
  exact .cons (hread (by simp [sampleImages]) (by decide +kernel))
    (.cons (hread (by simp [sampleImages]) (by decide +kernel)) .nil)

theorem sampleRow_fits : sampleRow.Fits sampleTable.schema sampleForest.format where
  types := by decide
  ownStart := by decide
  inOrder := by decide
  widths := by decide
  fixedLength := by decide
  variableCount := by decide
  variableLength := by decide
  tagged := by decide +kernel

theorem stores_sampleRow : sampleForest.Stores sampleTable.root
    [sampleRow.bytes sampleTable.schema sampleForest.format] := by
  decide +kernel

theorem ofRequest_bytes_sample :
    sampleFile.Fits ∧ sampleForest.Stores Catalog.rootPage (sampleImages.map (·.bytes)) ∧
      ∃ database, ofRequest sampleRead sampleRequest = .ok database ∧
        database.table? "T" = some sampleTable ∧ database.Holds sampleTable [sampleRow] ∧
        ∃ found, database.records sampleTable 1000 = .ok [.ok found] ∧
          found.record.slots = [some ⟨[42, 0, 0, 0], none⟩] := by
  have hfile : sampleRead "sample.edb" = some sampleFile.bytes := if_pos rfl
  have huntested : ¬sampleRequest.verifyChecksums = true := by decide
  obtain ⟨database, entries, hopened, -, hforest, hentries, -, hnamed, hread⟩ :=
    ofRequest_bytes sampleFile_fits hfile rfl rfl (fun htested => absurd htested huntested)
      stores_sampleImages sampleImages_fit
  obtain rfl : entries = sampleEntries :=
    List.right_unique_forall₂' (fun _ _ _ h h' => h.unique h') hentries describes_sampleEntries
  have hholds : database.Holds sampleTable [sampleRow] := by
    constructor
    · rw [hforest]
      exact stores_sampleRow
    · rw [hforest]
      exact List.forall_mem_singleton.mpr sampleRow_fits
  obtain ⟨hrecords, -, hrecord, -⟩ := hread sampleTable [sampleRow] hholds
  refine ⟨sampleFile_fits, stores_sampleImages, database, hopened, ?_, hholds, ?_⟩
  · exact (hnamed ⟨by decide, by decide⟩ _ _).mpr
      ⟨sampleTableEntry, by decide, rfl, by decide⟩
  · obtain ⟨found, hfound, hslots⟩ := List.map_eq_singleton_iff.mp hrecord
    refine ⟨found, ?_, ?_⟩
    · rw [hrecords, hfound]
      rfl
    · rw [hslots]
      rfl

end Database

end EseReader
