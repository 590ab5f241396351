import EseReader.Proofs.Catalog.Grouping
import Mathlib.Data.List.Sort
import Mathlib.Data.Fin.VecNotation

/-!
# `EseReader/Proofs/Catalog/Independence.lean` — tables do not depend on each other

If no two tables have the same identifier or the same name, positions are not needed to say what a
table has: it is **the entries behind it that name it** (`own`), and its template is the only table
with that name. What a list of entries says about a table is then a matter of the table and the
entries that name it (`own_filter`), and of nothing else but the template.

Two things follow. Entries can be moved past each other as long as each stays on its side of its
table and those of one table keep their order (`tablesOf_rearranged`). **Both sides count**: a table
that is moved in front of an entry that names it is given that entry, so it is not enough that
entries stay behind their tables. And a table can be taken away with all it has: no other table
changes, except that its columns are missing where it was the template (`tablesOf_left`).
-/

set_option autoImplicit false

namespace EseReader

/-- An entry that is no table names the table it belongs to by its identifier. -/
def SchemaEntry.names (entry table : SchemaEntry) : Bool :=
  !entry.isTable && table.identifier == entry.owner

/-- A table without the columns of a template that is not there any more. -/
def TableDefinition.withoutTemplate (name : String) (table : TableDefinition) : TableDefinition :=
  if table.template = some name then { table with templateColumns := [] } else table

namespace Catalog

variable {entries before later reordered : List SchemaEntry} {table entry : SchemaEntry}

theorem names_iff :
    entry.names table = true ↔ entry.isTable = false ∧ table.identifier = entry.owner := by
  rw [SchemaEntry.names, Bool.and_eq_true_iff, Bool.not_eq_true', beq_iff_eq]

theorem names_of_isTable (h : entry.isTable = true) : entry.names table = false := by
  rw [SchemaEntry.names, h]
  rfl

/-- The entries that are tables. -/
def tables (entries : List SchemaEntry) : List SchemaEntry := entries.filter (·.isTable)

/-- No two tables have the same identifier or the same name. -/
structure Distinct (entries : List SchemaEntry) : Prop where
  identifiers : ((tables entries).map (·.identifier)).Nodup
  names : ((tables entries).map (·.name)).Nodup

/-- What no two tables have in common is that of one table only. -/
theorem ne_of_nodup {α : Type} {key : SchemaEntry → α} (htable : table.isTable = true)
    (h : ((tables (before ++ table :: later)).map key).Nodup) {other : SchemaEntry}
    (hother : other ∈ tables (before ++ later)) : key other ≠ key table := by
  rw [tables, List.filter_append, List.filter_cons_of_pos htable, List.map_append, List.map_cons,
    List.nodup_middle, List.nodup_cons, ← List.map_append, ← List.filter_append] at h
  exact fun heq => h.1 (heq ▸ List.mem_map_of_mem hother)

theorem Distinct.identifier_ne (h : Distinct entries) {i j : Fin entries.length} (hlt : i < j)
    (hi : entries[i].isTable = true) (hj : entries[j].isTable = true) :
    entries[i].identifier ≠ entries[j].identifier := by
  have hpairs := h.identifiers
  rw [tables, List.Nodup, List.pairwise_map, List.pairwise_filter] at hpairs
  exact List.pairwise_iff_getElem.mp hpairs i j i.isLt j.isLt hlt hi hj

/-! ## Without positions -/

theorem tablesAt_split (htable : table.isTable = true) :
    tablesAt (before ++ table :: later) = tablesAt before ++
      (table, before.length) :: (later.zipIdx (before.length + 1)).filter (·.1.isTable) := by
  rw [tablesAt, List.zipIdx_append, List.filter_append, Nat.zero_add, List.zipIdx_cons,
    List.filter_cons, if_pos htable]
  rfl

theorem exists_of_mem_tablesAt {position : Nat} (h : (table, position) ∈ tablesAt entries) :
    table.isTable = true ∧ ∃ before later, entries = before ++ table :: later ∧
      before.length = position := by
  obtain ⟨hmem, htable⟩ := List.mem_filter.mp h
  obtain ⟨hlt, heq⟩ := List.mem_zipIdx' hmem
  refine ⟨htable, entries.take position, entries.drop (position + 1), ?_, ?_⟩
  · rw [heq, ← List.drop_eq_getElem_cons hlt, List.take_append_drop]
  · exact List.length_take_of_le (Nat.le_of_lt hlt)

/-- With no other table of that identifier behind it, a table is the home of all entries behind it
that name it. -/
theorem home?_eq_some_iff (htable : table.isTable = true)
    (hlater : ∀ other ∈ tables later, other.identifier ≠ table.identifier) :
    home? (before ++ table :: later) entry = some before.length ↔ entry.names table = true := by
  rw [names_iff, home?]
  cases entry.isTable with
  | true => simp
  | false =>
    rw [if_neg Bool.false_ne_true, tablesAt_split htable]
    constructor
    · intro hlast
      obtain ⟨⟨other, position⟩, hlast, rfl⟩ := Option.map_eq_some_iff.mp hlast
      obtain ⟨hmem, howner⟩ := List.mem_filter.mp (List.mem_of_getLast? hlast)
      rw [← tablesAt_split htable] at hmem
      obtain ⟨_, heq⟩ := List.mem_zipIdx' (List.mem_filter.mp hmem).1
      have hsame : other = table := by simpa using heq
      exact ⟨rfl, hsame ▸ beq_iff_eq.mp howner⟩
    · rintro ⟨-, howner⟩
      have hrest : ((later.zipIdx (before.length + 1)).filter (·.1.isTable)).filter
          (·.1.identifier == entry.owner) = [] := by
        rw [List.filter_eq_nil_iff]
        intro other hother heq
        obtain ⟨hmem, htable⟩ := List.mem_filter.mp hother
        refine hlater other.1 (List.mem_filter.mpr ⟨List.fst_mem_of_mem_zipIdx hmem, htable⟩) ?_
        rw [howner]
        exact beq_iff_eq.mp heq
      rw [List.filter_append, List.filter_cons, if_pos (beq_iff_eq.mpr howner), hrest,
        List.getLast?_concat, Option.map_some]

theorem ownAt_split (htable : table.isTable = true)
    (hlater : ∀ other ∈ tables later, other.identifier ≠ table.identifier) :
    ownAt (before ++ table :: later) before.length = later.filter (·.names table) := by
  induction later using List.reverseRecOn with
  | nil =>
    have hnowhere : home? before table = none := if_pos htable
    rw [ownAt_snoc, ownAt_length, hnowhere]
    rfl
  | append_singleton later entry ih =>
    have hlater' : ∀ other ∈ tables later, other.identifier ≠ table.identifier := by
      intro other hother
      refine hlater other ?_
      rw [tables, List.filter_append]
      exact List.mem_append_left _ hother
    have hhome : home? (before ++ table :: later) entry = some before.length ↔
        entry.names table = true := home?_eq_some_iff htable hlater'
    rw [← List.cons_append, ← List.append_assoc, ownAt_snoc, ih hlater', List.filter_append]
    refine congrArg (later.filter (·.names table) ++ ·) ?_
    cases hnames : entry.names table <;> simp [hhome, hnames]

/-- The entries behind a table that name it. -/
def own (entries : List SchemaEntry) (table : SchemaEntry) : List SchemaEntry :=
  (entries.dropWhile (· != table)).filter (·.names table)

theorem own_split (htable : table.isTable = true) (hbefore : table ∉ before) :
    own (before ++ table :: later) table = later.filter (·.names table) := by
  have hpassed : ∀ other ∈ before, (other != table) = true :=
    fun other hother => bne_iff_ne.mpr fun heq => hbefore (heq ▸ hother)
  rw [own, List.dropWhile_append_of_pos hpassed, List.dropWhile_cons_of_neg (by simp),
    List.filter_cons_of_neg (by simp [names_of_isTable htable])]

theorem Distinct.ownAt_eq (h : Distinct entries) {position : Nat}
    (hmem : (table, position) ∈ tablesAt entries) : ownAt entries position = own entries table := by
  obtain ⟨htable, before, later, rfl, rfl⟩ := exists_of_mem_tablesAt hmem
  have hother {other : SchemaEntry} (hmem : other ∈ tables (before ++ later)) :
      other.identifier ≠ table.identifier := ne_of_nodup htable h.identifiers hmem
  rw [tables, List.filter_append] at hother
  rw [ownAt_split htable fun other hlater => hother (List.mem_append_right _ hlater),
    own_split htable fun hbefore =>
      hother (List.mem_append_left _ (List.mem_filter.mpr ⟨hbefore, htable⟩)) rfl]

/-- The table whose columns a table is given as those of its template. -/
def template? (entries : List SchemaEntry) (table : SchemaEntry) : Option SchemaEntry :=
  table.template.bind fun name => (tables entries).find? (·.name == name)

/-- What the entries say about a table. -/
def definition (entries : List SchemaEntry) (table : SchemaEntry) : TableDefinition :=
  { TableDefinition.collect table (own entries table) with
    templateColumns :=
      match template? entries table with
      | none => []
      | some other => (own entries other).filter (·.isColumn) }

theorem template_definition (entries : List SchemaEntry) (table : SchemaEntry) :
    (definition entries table).template = table.template := rfl

theorem tables_eq_map (entries : List SchemaEntry) :
    tables entries = (tablesAt entries).map (·.1) := by
  have hentries : entries.zipIdx.map (·.1) = entries := List.zipIdx_map_fst 0 entries
  rw [tables, tablesAt, ← hentries, List.filter_map, hentries]
  rfl

/-- Without two tables alike, what is said by positions is said by the tables themselves. -/
theorem Distinct.tablesOf_eq (h : Distinct entries) :
    tablesOf entries = (tables entries).map (definition entries) := by
  rw [Catalog.tablesOf_eq, tables_eq_map, List.map_map]
  refine List.map_congr_left fun ⟨table, position⟩ hmem => ?_
  show definitionAt entries (table, position) = definition entries table
  unfold definitionAt definition templateColumns template?
  rw [h.ownAt_eq hmem]
  cases table.template with
  | none => rfl
  | some name =>
    have hfind : (tables entries).find? (·.name == name) =
        ((tablesAt entries).find? (·.1.name == name)).map (·.1) := by
      rw [tables_eq_map, List.find?_map]
      rfl
    simp only [Option.bind_some, hfind]
    cases hother : (tablesAt entries).find? (·.1.name == name) with
    | none => rfl
    | some other => simp only [Option.map_some, h.ownAt_eq (List.mem_of_find?_eq_some hother)]

/-! ## What a table depends on -/

/-- The table itself and the entries that name it. -/
def concerns (table entry : SchemaEntry) : Bool := entry == table || entry.names table

theorem concerns_iff : concerns table entry = true ↔ entry = table ∨ entry.names table = true := by
  rw [concerns, Bool.or_eq_true_iff, beq_iff_eq]

theorem own_cons_of_ne (h : entry ≠ table) : own (entry :: entries) table = own entries table := by
  rw [own, List.dropWhile_cons, if_pos (bne_iff_ne.mpr h), own]

theorem own_cons_self (htable : table.isTable = true) :
    own (table :: entries) table = entries.filter (·.names table) :=
  own_split htable List.not_mem_nil

/-- Of all entries, only the table and those that name it matter. -/
theorem own_filter {keep : SchemaEntry → Bool} (htable : table.isTable = true)
    (hkeep : keep table = true) (hnames : ∀ entry, entry.names table = true → keep entry = true) :
    own (entries.filter keep) table = own entries table := by
  induction entries with
  | nil => rfl
  | cons entry entries ih =>
    by_cases heq : entry = table
    · rw [heq, List.filter_cons_of_pos hkeep, own_cons_self htable, own_cons_self htable,
        List.filter_filter]
      refine List.filter_congr fun other _ => ?_
      cases hother : other.names table with
      | false => rfl
      | true => rw [hnames other hother, Bool.true_and]
    · rw [own_cons_of_ne heq]
      cases hentry : keep entry with
      | true => rw [List.filter_cons_of_pos hentry, own_cons_of_ne heq, ih]
      | false => rw [List.filter_cons_of_neg (by simp [hentry]), ih]

theorem own_congr (htable : table.isTable = true)
    (h : reordered.filter (concerns table) = entries.filter (concerns table)) :
    own reordered table = own entries table := by
  have hself : concerns table table = true := concerns_iff.mpr (.inl rfl)
  have hnames (entry : SchemaEntry) (hentry : entry.names table = true) :
      concerns table entry = true := concerns_iff.mpr (.inr hentry)
  rw [← own_filter htable hself hnames, h, own_filter htable hself hnames]

theorem mem_tables_of_template? {other : SchemaEntry} (h : template? entries table = some other) :
    other ∈ tables entries := by
  obtain ⟨name, _, hfind⟩ := Option.bind_eq_some_iff.mp h
  exact List.mem_of_find?_eq_some hfind

theorem definition_congr (hown : own reordered table = own entries table)
    (htemplate : template? reordered table = template? entries table)
    (hother : ∀ other, template? entries table = some other →
      own reordered other = own entries other) :
    definition reordered table = definition entries table := by
  unfold definition
  rw [hown, htemplate]
  cases h : template? entries table with
  | none => rfl
  | some other => simp only [hother other h]

/-- Tables of which no two have the same name are found by it wherever they stand. -/
theorem find?_name_eq_some_iff {tables : List SchemaEntry} (h : (tables.map (·.name)).Nodup)
    {name : String} :
    tables.find? (·.name == name) = some table ↔ table ∈ tables ∧ table.name = name := by
  constructor
  · intro hfind
    have hname := List.find?_some hfind
    exact ⟨List.mem_of_find?_eq_some hfind, beq_iff_eq.mp hname⟩
  · rintro ⟨hmem, rfl⟩
    have hsome : (tables.find? (·.name == table.name)).isSome = true :=
      List.find?_isSome.mpr ⟨table, hmem, beq_self_eq_true table.name⟩
    obtain ⟨other, hother⟩ := Option.isSome_iff_exists.mp hsome
    have hname := List.find?_some hother
    rw [hother, List.inj_on_of_nodup_map h (List.mem_of_find?_eq_some hother) hmem
      (beq_iff_eq.mp hname)]

/-! ## Rearranging -/

/-- The entries of a list at other places. What belongs to a table stays behind it, and what stands in
front of the table it names, and so belongs to none, stays in front of it; entries with the same owner
stay in the same order. Nothing else is asked: tables can be moved past each other, and past the
entries of other tables. -/
structure Rearrangement (entries reordered : List SchemaEntry) where
  move : Fin entries.length ≃ Fin reordered.length
  same : ∀ i, reordered[move i] = entries[i]
  /-- The entry at `j` names the table at `i`. -/
  table_lt : ∀ i j, entries[i].isTable = true → entries[j].names entries[i] = true →
    (i < j ↔ move i < move j)
  owner_lt : ∀ i j, entries[i].isTable = false → entries[j].isTable = false →
    entries[i].owner = entries[j].owner → i < j → move i < move j

namespace Rearrangement

theorem map_move (h : Rearrangement entries reordered) :
    ((List.finRange entries.length).map h.move).map reordered.get = entries := by
  rw [List.map_map]
  refine (List.map_congr_left fun i _ => ?_).trans (List.map_get_finRange entries)
  exact h.same i

theorem perm (h : Rearrangement entries reordered) : entries.Perm reordered := by
  have hpositions : ((List.finRange entries.length).map h.move).Perm
      (List.finRange reordered.length) := by
    refine (List.perm_ext_iff_of_nodup ?_ (List.nodup_finRange _)).mpr fun i => ?_
    · exact (List.nodup_finRange _).map h.move.injective
    · refine iff_of_true (List.mem_map.mpr ⟨h.move.symm i, List.mem_finRange _, ?_⟩)
        (List.mem_finRange i)
      exact h.move.apply_symm_apply i
  have hentries := hpositions.map reordered.get
  rw [h.map_move, List.map_get_finRange] at hentries
  exact hentries

/-- Entries of which none is moved past another one are the same sequence in both lists. -/
theorem filter_eq (h : Rearrangement entries reordered) {keep : SchemaEntry → Bool}
    (hkeep : ∀ i j, keep entries[i] = true → keep entries[j] = true → i < j →
      h.move i < h.move j) :
    reordered.filter keep = entries.filter keep := by
  have hpositions : (List.finRange reordered.length).filter (keep ∘ reordered.get) =
      ((List.finRange entries.length).filter (keep ∘ entries.get)).map h.move := by
    refine List.Pairwise.eq_of_mem_iff (r := (· < ·))
      ((List.pairwise_lt_finRange _).filter _) (List.pairwise_map.mpr ?_) fun i => ?_
    · refine ((List.pairwise_lt_finRange _).filter _).imp_of_mem fun {i j} hi hj hlt => ?_
      exact hkeep i j (List.mem_filter.mp hi).2 (List.mem_filter.mp hj).2 hlt
    · have hsame : keep (reordered.get (h.move (h.move.symm i))) =
          keep (entries.get (h.move.symm i)) := congrArg keep (h.same _)
      rw [h.move.apply_symm_apply] at hsame
      constructor
      · intro hi
        refine List.mem_map.mpr ⟨h.move.symm i, ?_, h.move.apply_symm_apply i⟩
        exact List.mem_filter.mpr ⟨List.mem_finRange _, hsame.symm.trans (List.mem_filter.mp hi).2⟩
      · intro hi
        obtain ⟨j, hj, rfl⟩ := List.mem_map.mp hi
        rw [h.move.symm_apply_apply] at hsame
        exact List.mem_filter.mpr ⟨List.mem_finRange _, hsame.trans (List.mem_filter.mp hj).2⟩
  calc reordered.filter keep
      = ((List.finRange reordered.length).filter (keep ∘ reordered.get)).map reordered.get := by
        rw [← List.filter_map, List.map_get_finRange]
    _ = ((List.finRange entries.length).filter (keep ∘ entries.get)).map entries.get := by
        rw [hpositions, List.map_map]
        exact List.map_congr_left fun i _ => h.same i
    _ = entries.filter keep := by rw [← List.filter_map, List.map_get_finRange]

/-- A table and the entries that name it stand in the same order in both lists. -/
theorem filter_concerns (h : Rearrangement entries reordered) (hdistinct : Distinct entries)
    (htable : table.isTable = true) :
    reordered.filter (concerns table) = entries.filter (concerns table) := by
  refine h.filter_eq fun i j hi hj hlt => ?_
  rcases concerns_iff.mp hi with hi | hi <;> rcases concerns_iff.mp hj with hj | hj
  · refine absurd ?_ (hdistinct.identifier_ne hlt (hi ▸ htable) (hj ▸ htable))
    rw [hi, hj]
  · exact (h.table_lt i j (hi ▸ htable) (hi ▸ hj)).mp hlt
  · have hstays := h.table_lt j i (hj ▸ htable) (hj ▸ hi)
    have hle : h.move i ≤ h.move j := not_lt.mp fun hback => absurd (hstays.mpr hback) hlt.asymm
    exact lt_of_le_of_ne hle fun heq => hlt.ne (h.move.injective heq)
  · obtain ⟨hi, howner⟩ := names_iff.mp hi
    obtain ⟨hj, howner'⟩ := names_iff.mp hj
    exact h.owner_lt i j hi hj (howner.symm.trans howner') hlt

theorem distinct (h : Rearrangement entries reordered) (hdistinct : Distinct entries) :
    Distinct reordered := by
  have htables : (tables entries).Perm (tables reordered) := h.perm.filter _
  constructor
  · exact (htables.map _).nodup_iff.mp hdistinct.identifiers
  · exact (htables.map _).nodup_iff.mp hdistinct.names

theorem definition_eq (h : Rearrangement entries reordered) (hdistinct : Distinct entries)
    (htable : table.isTable = true) : definition reordered table = definition entries table := by
  have hown {other : SchemaEntry} (hother : other.isTable = true) :
      own reordered other = own entries other :=
    own_congr hother (h.filter_concerns hdistinct hother)
  have htables : (tables entries).Perm (tables reordered) := h.perm.filter _
  refine definition_congr (hown htable) (congrArg _ (funext fun name => ?_)) fun other hother => ?_
  · refine Option.ext fun other => ?_
    rw [find?_name_eq_some_iff (h.distinct hdistinct).names,
      find?_name_eq_some_iff hdistinct.names, htables.mem_iff]
  · exact hown (List.mem_filter.mp (mem_tables_of_template? hother)).2

end Rearrangement

theorem tablesOf_rearranged (hdistinct : Distinct entries) (h : Rearrangement entries reordered) :
    (tablesOf reordered).Perm (tablesOf entries) := by
  rw [(h.distinct hdistinct).tablesOf_eq, hdistinct.tablesOf_eq]
  have hdefinition : (tables reordered).map (definition reordered) =
      (tables reordered).map (definition entries) :=
    List.map_congr_left fun table htable => h.definition_eq hdistinct (List.mem_filter.mp htable).2
  rw [hdefinition]
  exact (h.perm.filter _).symm.map _

/-! ## Taking a table away -/

/-- `kept` is what is left of `before ++ table :: later` when the table is taken away: everything that
does not name the table. If what belongs to it is taken away as well, that is `left_filter`; but it
makes no difference which of the entries that name it are left, since there is no other table that
they could belong to. -/
def Left (before : List SchemaEntry) (table : SchemaEntry) (later kept : List SchemaEntry) : Prop :=
  kept.filter (!·.names table) = (before ++ later).filter (!·.names table)

theorem left_filter (before : List SchemaEntry) (table : SchemaEntry) (later : List SchemaEntry) :
    Left before table later (before ++ later.filter (!·.names table)) := by
  rw [Left, List.filter_append, List.filter_append, List.filter_filter]
  simp only [Bool.and_self]

theorem filter_not_names {keep : SchemaEntry → Bool}
    (h : ∀ entry, keep entry = true → entry.names table = false) :
    (entries.filter (!·.names table)).filter keep = entries.filter keep := by
  rw [List.filter_filter]
  refine List.filter_congr fun entry _ => ?_
  cases hentry : keep entry with
  | false => rfl
  | true => rw [h entry hentry]; rfl

namespace Left

variable {kept : List SchemaEntry}

theorem filter_eq (h : Left before table later kept) {keep : SchemaEntry → Bool}
    (hkeep : ∀ entry, keep entry = true → entry.names table = false) :
    kept.filter keep = (before ++ later).filter keep := by
  rw [← filter_not_names hkeep, h, filter_not_names hkeep]

theorem tables_eq (h : Left before table later kept) : tables kept = tables (before ++ later) :=
  h.filter_eq fun _ => names_of_isTable

theorem perm_tables (h : Left before table later kept) (htable : table.isTable = true) :
    (tables (before ++ table :: later)).Perm (table :: tables kept) := by
  rw [h.tables_eq, tables, tables, List.filter_append, List.filter_cons_of_pos htable,
    List.filter_append]
  exact List.perm_middle

theorem mem_tables_iff (h : Left before table later kept) (htable : table.isTable = true)
    {other : SchemaEntry} :
    other ∈ tables (before ++ table :: later) ↔ other = table ∨ other ∈ tables kept :=
  (h.perm_tables htable).mem_iff.trans List.mem_cons

theorem distinct (h : Left before table later kept) (htable : table.isTable = true)
    (hdistinct : Distinct (before ++ table :: later)) : Distinct kept := by
  have htables := h.perm_tables htable
  constructor
  · exact ((htables.map _).nodup_iff.mp hdistinct.identifiers).of_cons
  · exact ((htables.map _).nodup_iff.mp hdistinct.names).of_cons

/-- What another table depends on is still there. -/
theorem own_eq (h : Left before table later kept) (htable : table.isTable = true)
    (hdistinct : Distinct (before ++ table :: later)) {other : SchemaEntry}
    (hother : other ∈ tables kept) : own kept other = own (before ++ table :: later) other := by
  have hkind : other.isTable = true := (List.mem_filter.mp hother).2
  have hne : other.identifier ≠ table.identifier :=
    ne_of_nodup htable hdistinct.identifiers (h.tables_eq ▸ hother)
  have hconcerns (entry : SchemaEntry) (hentry : concerns other entry = true) :
      entry.names table = false := by
    rcases concerns_iff.mp hentry with rfl | hentry
    · exact names_of_isTable hkind
    · refine Bool.eq_false_iff.mpr fun hnames => hne ?_
      exact (names_iff.mp hentry).2.trans (names_iff.mp hnames).2.symm
  have hapart : ¬ concerns other table = true := by
    intro hself
    rcases concerns_iff.mp hself with rfl | hself
    · exact hne rfl
    · rw [names_of_isTable htable] at hself
      cases hself
  refine own_congr hkind ?_
  rw [h.filter_eq hconcerns, List.filter_append, List.filter_append, List.filter_cons_of_neg hapart]

theorem template?_eq_none (h : Left before table later kept) (htable : table.isTable = true)
    (hdistinct : Distinct (before ++ table :: later)) (htemplate : entry.template = some table.name) :
    template? kept entry = none := by
  rw [template?, htemplate, Option.bind_some, List.find?_eq_none]
  intro candidate hcandidate hname
  exact ne_of_nodup htable hdistinct.names (h.tables_eq ▸ hcandidate) (beq_iff_eq.mp hname)

theorem template?_eq (h : Left before table later kept) (htable : table.isTable = true)
    (hdistinct : Distinct (before ++ table :: later)) (htemplate : entry.template ≠ some table.name) :
    template? kept entry = template? (before ++ table :: later) entry := by
  unfold template?
  cases hname : entry.template with
  | none => rfl
  | some name =>
    have hne : name ≠ table.name := fun heq => htemplate (hname.trans (congrArg some heq))
    rw [Option.bind_some, Option.bind_some]
    refine Option.ext fun candidate => ?_
    rw [find?_name_eq_some_iff (h.distinct htable hdistinct).names,
      find?_name_eq_some_iff hdistinct.names, h.mem_tables_iff htable]
    constructor
    · exact fun ⟨hmem, heq⟩ => ⟨.inr hmem, heq⟩
    · rintro ⟨rfl | hmem, heq⟩
      · exact absurd heq.symm hne
      · exact ⟨hmem, heq⟩

theorem definition_eq (h : Left before table later kept) (htable : table.isTable = true)
    (hdistinct : Distinct (before ++ table :: later)) {other : SchemaEntry}
    (hother : other ∈ tables kept) :
    definition kept other =
      (definition (before ++ table :: later) other).withoutTemplate table.name := by
  have hown := h.own_eq htable hdistinct hother
  by_cases htemplate : other.template = some table.name
  · rw [TableDefinition.withoutTemplate, template_definition, if_pos htemplate, definition,
      definition, hown, h.template?_eq_none htable hdistinct htemplate]
  · rw [TableDefinition.withoutTemplate, template_definition, if_neg htemplate]
    refine definition_congr hown (h.template?_eq htable hdistinct htemplate) fun found hfound => ?_
    rw [← h.template?_eq htable hdistinct htemplate] at hfound
    exact h.own_eq htable hdistinct (mem_tables_of_template? hfound)

end Left

/-- **A table goes without a trace**, except where it was the template. -/
theorem tablesOf_left {kept : List SchemaEntry} (h : Left before table later kept)
    (htable : table.isTable = true) (hdistinct : Distinct (before ++ table :: later)) :
    tablesOf kept =
      ((tablesOf (before ++ table :: later)).filter (·.identifier != table.identifier)).map
        (·.withoutTemplate table.name) := by
  have hothers : (tables (before ++ table :: later)).filter (·.identifier != table.identifier) =
      tables kept := by
    rw [h.tables_eq, tables, List.filter_append, List.filter_cons_of_pos htable,
      List.filter_append, List.filter_cons_of_neg (by simp), ← List.filter_append,
      ← List.filter_append]
    exact List.filter_eq_self.mpr fun other hother =>
      bne_iff_ne.mpr (ne_of_nodup htable hdistinct.identifiers hother)
  rw [(h.distinct htable hdistinct).tablesOf_eq, hdistinct.tablesOf_eq, List.filter_map,
    List.map_map, ← hothers]
  refine List.map_congr_left fun other hother => ?_
  rw [hothers] at hother
  exact h.definition_eq htable hdistinct hother

/-! ## The tables of a catalog -/

/-- **Grouping loses nothing, gives nothing twice and gives nothing to the wrong table; and tables do
not depend on each other.** The definitions are those that positions say, for all entries whatever
they are: one for each table in order, with the entries whose home it is and the own columns of the
first table with the name of its template. If no two tables have the same identifier or the same
name, entries can be rearranged, and a table can be taken away with all it has. -/
theorem tablesOf_eq_and_independent (entries : List SchemaEntry) :
    tablesOf entries = (tablesAt entries).map (definitionAt entries) ∧
      (Distinct entries →
        (∀ reordered, Rearrangement entries reordered →
          (tablesOf reordered).Perm (tablesOf entries)) ∧
        ∀ before table later kept, entries = before ++ table :: later → table.isTable = true →
          Left before table later kept →
          tablesOf kept =
            ((tablesOf entries).filter (·.identifier != table.identifier)).map
              (·.withoutTemplate table.name)) := by
  refine ⟨tablesOf_eq entries, fun hdistinct => ⟨fun reordered h => ?_, ?_⟩⟩
  · exact tablesOf_rearranged hdistinct h
  · rintro before table later kept rfl htable h
    exact tablesOf_left h htable hdistinct

/-! ### Two tables and their entries, one after the other and mixed up -/

def sampleBase : SchemaEntry := ⟨10, 10, .table 20, 0, 0, "Base", none, none⟩

def sampleDerived : SchemaEntry := ⟨11, 11, .table 30, 0, 0, "Derived", some "Base", none⟩

def sampleColumn (owner identifier : UInt32) : SchemaEntry :=
  ⟨identifier, owner, .column 4 0, 4, 0, "", none, none⟩

/-- The last entry names a table that is not there. -/
def sampleEntries : List SchemaEntry :=
  [sampleBase, sampleColumn 10 1, sampleDerived, sampleColumn 11 256, sampleColumn 99 1]

def sampleReordered : List SchemaEntry :=
  [sampleDerived, sampleColumn 11 256, sampleBase, sampleColumn 99 1, sampleColumn 10 1]

def sampleMove : Equiv.Perm (Fin 5) where
  toFun := ![2, 4, 0, 1, 3]
  invFun := ![2, 3, 0, 4, 1]
  left_inv := by unfold Function.LeftInverse; decide
  right_inv := by unfold Function.RightInverse Function.LeftInverse; decide

def sampleRearrangement : Rearrangement sampleEntries sampleReordered where
  move := sampleMove
  same := by decide
  table_lt := by decide
  owner_lt := by decide

theorem tablesOf_eq_and_independent_sample :
    Distinct sampleEntries ∧ (tablesOf sampleReordered).Perm (tablesOf sampleEntries) ∧
      (tablesOf sampleEntries).map (·.templateColumns) = [[], [sampleColumn 10 1]] ∧
      tablesOf [sampleDerived, sampleColumn 11 256, sampleColumn 99 1] =
        [.collect sampleDerived [sampleColumn 11 256]] := by
  have hdistinct : Distinct sampleEntries := ⟨by decide, by decide⟩
  obtain ⟨hpositions, hindependent⟩ := tablesOf_eq_and_independent sampleEntries
  obtain ⟨hreordered, hremoved⟩ := hindependent hdistinct
  refine ⟨hdistinct, hreordered _ sampleRearrangement, ?_, ?_⟩
  · rw [hpositions]
    decide
  · refine (hremoved [] sampleBase _ _ rfl rfl (left_filter _ _ _)).trans ?_
    rw [hpositions]
    decide

/-! ### A table moved in front of a column that names it

It is not enough to keep each table in front of the entries that name it: the column goes nowhere as
long as the table comes behind it, and belongs to the table as soon as that is moved to the front. So
`Rearrangement.table_lt` is asked in both directions. -/

def sampleLate : SchemaEntry := ⟨10, 0, .table 20, 0, 0, "Late", none, none⟩

def sampleStray : List SchemaEntry := [sampleColumn 10 1, sampleLate]

def sampleAdopted : List SchemaEntry := [sampleLate, sampleColumn 10 1]

def sampleExchange : Equiv.Perm (Fin 2) where
  toFun := ![1, 0]
  invFun := ![1, 0]
  left_inv := by unfold Function.LeftInverse; decide
  right_inv := by unfold Function.RightInverse Function.LeftInverse; decide

/-- The table has been moved in front of the column that names it, and no two entries with the same
owner have been moved past each other. Still the table is not the same. -/
theorem not_perm_tablesOf_adopted :
    Distinct sampleStray ∧
      ∃ move : Fin sampleStray.length ≃ Fin sampleAdopted.length,
        (∀ i, sampleAdopted[move i] = sampleStray[i]) ∧
        (∀ i j, sampleStray[i].isTable = true → sampleStray[j].names sampleStray[i] = true →
          move i < move j) ∧
        (∀ i j, sampleStray[i].owner = sampleStray[j].owner → i < j → move i < move j) ∧
        ¬ (tablesOf sampleAdopted).Perm (tablesOf sampleStray) :=
  ⟨⟨by decide, by decide⟩, sampleExchange, by decide, by decide, by decide, by decide⟩

end Catalog

end EseReader
