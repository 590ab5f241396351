import EseReader.Catalog.Tables
import Mathlib.Data.List.Induction
import Mathlib.Data.List.Nodup

/-!
# `EseReader/Proofs/Catalog/Grouping.lean` — which table an entry goes to

`Catalog.group` carries the tables found so far along and looks through them for every entry. Here
the same is said without carrying anything along: an entry that is no table goes to the latest table
in front of it with the identifier it names (`home?`), and what a table has is a question to the
whole list of entries (`ownAt`). That both are the same is an induction over the entries with the
last one taken off (`group_eq`), since that is how the list is gone through.

Templates are looked up when all tables are there, and give their **own** columns, which no lookup
changes. So the order in which the tables are completed does not matter, a table may be its own
template, and what the template of a template has is not handed on (`tablesOf_eq`).
-/

set_option autoImplicit false

namespace EseReader

namespace SchemaEntry

def isTable (entry : SchemaEntry) : Bool :=
  match entry.kind with
  | .table _ => true
  | _ => false

def isIndex (entry : SchemaEntry) : Bool :=
  match entry.kind with
  | .index .. => true
  | _ => false

def isLongValue (entry : SchemaEntry) : Bool :=
  match entry.kind with
  | .longValue _ => true
  | _ => false

def isCallback (entry : SchemaEntry) : Bool :=
  match entry.kind with
  | .callback => true
  | _ => false

end SchemaEntry

namespace TableDefinition

/-- A table with the entries that are its own, without the columns of its template. -/
def collect (table : SchemaEntry) (own : List SchemaEntry) : TableDefinition where
  entry := table
  columns := own.filter (·.isColumn)
  indexes := own.filter (·.isIndex)
  longValue := (own.filter (·.isLongValue)).getLast?
  callback := (own.filter (·.isCallback)).getLast?
  templateColumns := []

theorem identifier_collect (table : SchemaEntry) (own : List SchemaEntry) :
    (collect table own).identifier = table.identifier := rfl

theorem template_collect (table : SchemaEntry) (own : List SchemaEntry) :
    (collect table own).template = table.template := rfl

theorem add_collect {entry : SchemaEntry} (h : entry.isTable = false) (table : SchemaEntry)
    (own : List SchemaEntry) :
    (collect table own).add entry = collect table (own ++ [entry]) := by
  unfold add collect
  cases hkind : entry.kind with
  | table page => simp [SchemaEntry.isTable, hkind] at h
  | column | index | longValue | callback =>
    simp [SchemaEntry.isColumn, SchemaEntry.isIndex, SchemaEntry.isLongValue,
      SchemaEntry.isCallback, hkind]

end TableDefinition

namespace Catalog

variable {entries before : List SchemaEntry} {entry : SchemaEntry} {position : Nat}

/-- The tables among the entries, with their positions. -/
def tablesAt (entries : List SchemaEntry) : List (SchemaEntry × Nat) :=
  entries.zipIdx.filter (·.1.isTable)

/-- The position of the table that an entry goes to if these entries are in front of it: the latest
one with the identifier it names. A table goes to no table. -/
def home? (before : List SchemaEntry) (entry : SchemaEntry) : Option Nat :=
  if entry.isTable then none
  else ((tablesAt before).filter (·.1.identifier == entry.owner)).getLast?.map (·.2)

/-- The entries that go to the table at a position, in order. -/
def ownAt (entries : List SchemaEntry) (position : Nat) : List SchemaEntry :=
  (entries.zipIdx.filter fun entry => home? (entries.take entry.2) entry.1 == some position).map (·.1)

/-- The columns that a template of that name gives: the own columns of the first such table. -/
def templateColumns (entries : List SchemaEntry) (template : Option String) : List SchemaEntry :=
  match template with
  | none => []
  | some name =>
    match (tablesAt entries).find? (·.1.name == name) with
    | none => []
    | some (_, position) => (ownAt entries position).filter (·.isColumn)

/-- All that the entries say about the table at a position. -/
def definitionAt (entries : List SchemaEntry) (table : SchemaEntry × Nat) : TableDefinition :=
  { TableDefinition.collect table.1 (ownAt entries table.2) with
    templateColumns := templateColumns entries table.1.template }

/-! ## One entry more -/

theorem tablesAt_snoc (entries : List SchemaEntry) (entry : SchemaEntry) :
    tablesAt (entries ++ [entry]) =
      tablesAt entries ++ if entry.isTable then [(entry, entries.length)] else [] := by
  rw [tablesAt, List.zipIdx_append, List.filter_append, Nat.zero_add]
  refine congrArg (tablesAt entries ++ ·) ?_
  cases h : entry.isTable <;> simp [h]

theorem lt_of_home? (h : home? before entry = some position) : position < before.length := by
  unfold home? at h
  split at h
  · cases h
  · obtain ⟨table, hlast, rfl⟩ := Option.map_eq_some_iff.mp h
    have hmem := List.mem_of_mem_filter (List.mem_of_mem_filter (List.mem_of_getLast? hlast))
    exact (List.mem_zipIdx' hmem).1

theorem ownAt_snoc (entries : List SchemaEntry) (entry : SchemaEntry) (position : Nat) :
    ownAt (entries ++ [entry]) position =
      ownAt entries position ++ if home? entries entry = some position then [entry] else [] := by
  have hbefore : ∀ other ∈ entries.zipIdx,
      (home? ((entries ++ [entry]).take other.2) other.1 == some position) =
        (home? (entries.take other.2) other.1 == some position) := by
    intro other hother
    rw [List.take_append_of_le_length (Nat.le_of_lt (List.mem_zipIdx' hother).1)]
  rw [ownAt, List.zipIdx_append, List.filter_append, List.map_append, List.filter_congr hbefore,
    Nat.zero_add]
  refine congrArg (ownAt entries position ++ ·) ?_
  by_cases h : home? entries entry = some position <;> simp [h]

/-- Nothing goes to a position behind all entries. -/
theorem ownAt_length (entries : List SchemaEntry) : ownAt entries entries.length = [] := by
  rw [ownAt, List.map_eq_nil_iff, List.filter_eq_nil_iff]
  intro other _ hhome
  have hlt := lt_of_home? (beq_iff_eq.mp hhome)
  rw [List.length_take] at hlt
  omega

theorem take_of_table (h : entry.isTable = true) (tables : List TableDefinition) :
    take tables entry = .collect entry [] :: tables := by
  unfold take
  cases hkind : entry.kind with
  | table page => rfl
  | column | index | longValue | callback => simp [SchemaEntry.isTable, hkind] at h

theorem take_of_not_table (h : entry.isTable = false) (tables : List TableDefinition) :
    take tables entry = addTo entry tables := by
  unfold take
  cases hkind : entry.kind with
  | table page => simp [SchemaEntry.isTable, hkind] at h
  | column | index | longValue | callback => rfl

/-- The first table that an entry belongs to is given it, and no other one. -/
theorem addTo_collect (h : entry.isTable = false) (own : Nat → List SchemaEntry)
    {tables : List (SchemaEntry × Nat)} (hnodup : (tables.map (·.2)).Nodup) :
    addTo entry (tables.map fun table => .collect table.1 (own table.2)) =
      tables.map fun table => .collect table.1 (own table.2 ++
        if (tables.filter (·.1.identifier == entry.owner)).head?.map (·.2) = some table.2 then [entry]
        else []) := by
  induction tables with
  | nil => rfl
  | cons table tables ih =>
    rw [List.map_cons, List.nodup_cons] at hnodup
    obtain ⟨hfresh, hnodup⟩ := hnodup
    rw [List.map_cons, List.map_cons, addTo]
    by_cases howner : table.1.identifier = entry.owner
    · have hfilter : (table :: tables).filter (·.1.identifier == entry.owner) =
          table :: tables.filter (·.1.identifier == entry.owner) :=
        List.filter_cons_of_pos (beq_iff_eq.mpr howner)
      rw [TableDefinition.identifier_collect, if_pos howner, hfilter, List.head?_cons, Option.map_some, if_pos rfl,
        TableDefinition.add_collect h]
      refine congrArg (_ :: ·) (List.map_congr_left fun other hother => ?_)
      have hne : table.2 ≠ other.2 := fun heq => hfresh (heq ▸ List.mem_map_of_mem hother)
      rw [if_neg fun heq => hne (Option.some.inj heq), List.append_nil]
    · have hfilter : (table :: tables).filter (·.1.identifier == entry.owner) =
          tables.filter (·.1.identifier == entry.owner) :=
        List.filter_cons_of_neg fun heq => howner (beq_iff_eq.mp heq)
      rw [TableDefinition.identifier_collect, if_neg howner, hfilter, ih hnodup, if_neg,
        List.append_nil]
      intro hhead
      obtain ⟨other, hother, hposition⟩ := Option.map_eq_some_iff.mp hhead
      have hmem := List.mem_of_mem_filter (List.mem_of_head? hother)
      exact hfresh (hposition ▸ List.mem_map_of_mem hmem)

/-! ## All entries -/

theorem nodup_positions (entries : List SchemaEntry) : ((tablesAt entries).map (·.2)).Nodup := by
  have hpositions : (entries.zipIdx.map (·.2)).Nodup := by
    rw [List.zipIdx_map_snd]
    exact List.nodup_range'
  exact hpositions.sublist (List.filter_sublist.map _)

/-- **Every entry goes to the latest table in front of it that it names**, and to no other one. -/
theorem group_eq (entries : List SchemaEntry) :
    group entries =
      (tablesAt entries).map fun table => .collect table.1 (ownAt entries table.2) := by
  suffices h : entries.foldl take [] =
      (tablesAt entries).reverse.map fun table => .collect table.1 (ownAt entries table.2) by
    rw [group, h, ← List.map_reverse, List.reverse_reverse]
  induction entries using List.reverseRecOn with
  | nil => rfl
  | append_singleton entries entry ih =>
    rw [List.foldl_append, List.foldl_cons, List.foldl_nil, ih, tablesAt_snoc]
    simp only [ownAt_snoc]
    cases h : entry.isTable with
    | true =>
      have hnowhere : home? entries entry = none := if_pos h
      rw [take_of_table h, if_pos rfl, List.reverse_append, List.reverse_singleton,
        List.singleton_append, List.map_cons, ownAt_length, hnowhere]
      simp
    | false =>
      have hnodup : ((tablesAt entries).reverse.map (·.2)).Nodup := by
        rw [List.map_reverse, List.nodup_reverse]
        exact nodup_positions entries
      have hhome : home? entries entry = (((tablesAt entries).reverse.filter
          (·.1.identifier == entry.owner)).head?).map (·.2) := by
        rw [home?, if_neg (by simp [h]), List.filter_reverse, List.head?_reverse]
      rw [take_of_not_table h, addTo_collect h _ hnodup, hhome]
      simp

/-- **The tables that some entries describe.** There is one for each entry that is a table, in order.
It has the entries for which it is the latest table in front of them that they name, columns and
indexes in order and the last long-value tree and the last callback; and the own columns of the first
table with the name of its template, wherever that stands. -/
theorem tablesOf_eq (entries : List SchemaEntry) :
    tablesOf entries = (tablesAt entries).map (definitionAt entries) := by
  rw [tablesOf, group_eq, List.map_map]
  refine List.map_congr_left fun table _ => ?_
  show resolveTemplate _ (.collect table.1 _) = definitionAt entries table
  unfold resolveTemplate definitionAt templateColumns
  rw [TableDefinition.template_collect]
  cases table.1.template with
  | none => rfl
  | some name =>
    have hfind : ((tablesAt entries).map fun table =>
        TableDefinition.collect table.1 (ownAt entries table.2)).find? (·.name == name) =
          ((tablesAt entries).find? (·.1.name == name)).map fun table =>
            .collect table.1 (ownAt entries table.2) := List.find?_map
    simp only [hfind]
    cases (tablesAt entries).find? (·.1.name == name) <;> rfl

end Catalog

end EseReader
