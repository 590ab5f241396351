import EseReader.Proofs.LongValue.Segments
import EseReader.Proofs.Tree.Scan

/-!
# `EseReader/Proofs/LongValue/Open.lean` — opening a long value gives what its tree stores of it

What a long value **is** is said by the values of its tree alone (`LongValueKey.outcome`). How the
assembly gets hold of them, by a search for the anchor, a seek to the first segment key and a
reading that stops early, does not come into it, and neither do the pages that they stand on.
-/

set_option autoImplicit false

namespace EseReader

/-! ## What a long value is -/

namespace LongValueKey

/-- What a long value is by the values of its tree. -/
def outcome (key : LongValueKey) (contents : List LeafValue) : Except Error (Option LongValue) :=
  match contents.find? (·.key == key.anchor) with
  | none => .ok none
  | some anchor =>
    (LongValue.stitch ⟨[], 0⟩ (key.segmentsIn contents)).map fun assembly =>
      some ⟨key, anchor.data.u32At 4, assembly.segments.reverse⟩

variable {key : LongValueKey} {contents : List LeafValue} {anchor : LeafValue} {segment : Segment}
  {before later : List Segment}

theorem outcome_of_no_anchor (h : ∀ value ∈ contents, value.key ≠ key.anchor) :
    key.outcome contents = .ok none := by
  have hfind : contents.find? (·.key == key.anchor) = none := by
    simpa only [List.find?_eq_none, beq_iff_eq] using h
  rw [outcome, hfind]

theorem outcome_of_runsFrom (hfind : contents.find? (·.key == key.anchor) = some anchor)
    (h : LongValue.RunsFrom 0 (key.segmentsIn contents)) :
    key.outcome contents = .ok (some ⟨key, anchor.data.u32At 4, key.segmentsIn contents⟩) := by
  have hstitch : LongValue.stitch ⟨[], 0⟩ (key.segmentsIn contents) = .ok ⟨_ ++ [], _⟩ :=
    LongValue.stitch_of_runsFrom h
  simp only [outcome, hfind, hstitch, Except.map, List.append_nil, List.reverse_reverse]

theorem outcome_of_gap (hfind : contents.find? (·.key == key.anchor) = some anchor)
    (hsplit : key.segmentsIn contents = before ++ segment :: later)
    (hruns : LongValue.RunsFrom 0 before)
    (hgap : segment.offset.toNat ≠ LongValue.extent before) :
    key.outcome contents =
      .error (.segmentGap (.ofNat (LongValue.extent before)) segment.offset) := by
  have hstitch : LongValue.stitch ⟨[], 0⟩ (before ++ segment :: later) = _ :=
    LongValue.stitch_append_of_runsFrom hruns
  simp only [outcome, hfind, hsplit, hstitch, LongValue.stitch, Nat.zero_add, if_pos hgap,
    Except.map]

end LongValueKey

namespace Forest

/-- **A tree of long values**, each key at most once, in which every value under a key of four bytes
has the size of an anchor. Keys of other lengths may be there. -/
structure IsLongValueTree (forest : Forest) (root : PageNumber) : Prop where
  ordered : forest.IsOrdered .forward maxDepth root
  opens : ∀ entries ∈ forest.branchesBelow maxDepth root, EndsOpen entries
  chained : Chained (forest.leavesBelow maxDepth root)
  counted : ∀ leaf ∈ forest.leavesBelow maxDepth root, leaf.page < forest.source.pageCount
  distinct : ((forest.valuesBelow maxDepth root).map (·.key)).Nodup
  anchors : ∀ value ∈ forest.valuesBelow maxDepth root, value.key.bytes.length = 4 →
    value.data.length = 8

variable {forest : Forest} {root : PageNumber} {key : LongValueKey}

theorem IsLongValueTree.increasing (h : forest.IsLongValueTree root) :
    (forest.valuesBelow maxDepth root).Pairwise fun value later =>
      KeyOrder.forward.Lt value.key later.key := by
  refine (h.ordered.sorted.and (List.pairwise_map.mp h.distinct)).imp ?_
  rintro value later ⟨hle, hne⟩
  exact hle.eq_or_lt.resolve_left hne

/-- The anchor is the first value under its key, since it is the only one. -/
theorem IsLongValueTree.find?_anchor (h : forest.IsLongValueTree root) {anchor : LeafValue}
    (hanchor : anchor ∈ forest.valuesBelow maxDepth root) (hkey : anchor.key = key.anchor) :
    (forest.valuesBelow maxDepth root).find? (·.key == key.anchor) = some anchor := by
  have hincreasing := h.increasing
  obtain ⟨before, behind, hsplit⟩ := List.append_of_mem hanchor
  rw [hsplit] at hincreasing ⊢
  have hnone : before.find? (·.key == key.anchor) = none := by
    refine Settled.find?_eq_none fun other hother => ?_
    rw [← hkey]
    exact ((List.pairwise_append.mp hincreasing).2.2 other hother anchor List.mem_cons_self).ne
  rw [List.find?_append, hnone, Option.none_or]
  exact List.find?_cons_of_pos (beq_iff_eq.mpr hkey)

theorem value_longValueSegments (h : forest.IsLongValueTree root) (hkey : key.bytes.length = 4) :
    (forest.longValueSegments root key).value =
      (LongValue.stitch ⟨[], 0⟩ (key.segmentsIn (forest.valuesBelow maxDepth root))).map
        (·.segments.reverse) := by
  obtain ⟨cursor, early, late, hcursor, hsplit, hearly, hlate, hitems⟩ :=
    allItems_seek h.ordered h.opens h.chained h.counted (key.segment 0)
  have hsorted : KeyOrder.forward.Sorted late := by
    have hall := h.ordered.sorted
    rw [hsplit] at hall
    exact (List.pairwise_append.mp hall).2.1
  -- Nothing in front of the first segment key is a segment.
  have hsegments : key.segmentsIn (forest.valuesBelow maxDepth root) = key.segmentsIn late := by
    have hnone : key.segmentsIn early = [] := LongValueKey.segmentsIn_eq_nil fun value hvalue =>
      LongValueKey.segment?_eq_none_of_lt (hearly value hvalue)
    rw [LongValueKey.segmentsIn] at hnone
    rw [hsplit, LongValueKey.segmentsIn, List.filterMap_append, hnone, List.nil_append,
      LongValueKey.segmentsIn]
  simp only [longValueSegments, Walk.value_bind, hcursor, value_fold, hitems, Walk.value_pure]
  rw [LongValue.consume_assemble hkey hsorted hlate, hsegments]

/-- **Opening a long value gives what it is by the values of its tree.** -/
theorem value_longValue (h : forest.IsLongValueTree root) (hkey : key.bytes.length = 4) :
    (forest.longValue root key).value = key.outcome (forest.valuesBelow maxDepth root) := by
  rw [longValue, LongValueKey.outcome, Walk.value_bind, value_find h.ordered]
  cases hfind : (forest.valuesBelow maxDepth root).find? (·.key == key.anchor) with
  | none => rfl
  | some anchor =>
    have hfound := List.find?_some hfind
    have hanchor : anchor.key = key.anchor := beq_iff_eq.mp hfound
    have hsize : anchor.data.length = 8 := by
      refine h.anchors anchor (List.mem_of_find?_eq_some hfind) ?_
      rw [hanchor]
      exact hkey
    have hexact : anchor.data.exactly 8 = .ok anchor.data := if_pos hsize
    simp only [hexact, Walk.value_bind, Walk.value_pure, value_longValueSegments h hkey]
    cases LongValue.stitch ⟨[], 0⟩ (key.segmentsIn (forest.valuesBelow maxDepth root)) <;> rfl

end Forest

/-! ## Locations aside

Two trees may hold the same data on different pages. What is opened is then the same up to the
locations, which are erased here one level after the other. -/

def Location.none : Location := ⟨0, 0, 0, 0⟩

namespace LeafValue

/-- What a tree holds, apart from where it stands. -/
def binding (value : LeafValue) : Key × Bytes := (value.key, value.data)

def unplaced (value : LeafValue) : LeafValue :=
  { key := value.key, data := value.data, location := .none, kind := .longValue }

end LeafValue

def Segment.unplaced (segment : Segment) : Segment := { segment with location := .none }

def LongValue.unplaced (value : LongValue) : LongValue :=
  { value with segments := value.segments.map Segment.unplaced }

namespace LongValueKey

variable {key : LongValueKey}

theorem segment?_unplaced (value : LeafValue) :
    key.segment? value.unplaced = (key.segment? value).map Segment.unplaced := by
  have hite : (key.segment? value).map Segment.unplaced =
      if value.key = key.segment (.ofNat (bigEndian (value.key.bytes.drop 4))) then
        some ⟨.ofNat (bigEndian (value.key.bytes.drop 4)), value.data, .none⟩
      else none := apply_ite (Option.map Segment.unplaced) _ _ _
  rw [hite]
  rfl

theorem segmentsIn_unplaced (values : List LeafValue) :
    key.segmentsIn (values.map LeafValue.unplaced) =
      (key.segmentsIn values).map Segment.unplaced := by
  rw [segmentsIn, segmentsIn, List.filterMap_map, List.map_filterMap]
  congr 1
  funext value
  exact segment?_unplaced value

theorem stitch_unplaced (assembly : LongValue.Assembly) (segments : List Segment) :
    LongValue.stitch ⟨assembly.segments.map Segment.unplaced, assembly.expected⟩
        (segments.map Segment.unplaced) =
      (LongValue.stitch assembly segments).map fun stitched =>
        ⟨stitched.segments.map Segment.unplaced, stitched.expected⟩ := by
  induction segments generalizing assembly with
  | nil => rfl
  | cons segment segments ih =>
    rw [List.map_cons, LongValue.stitch, LongValue.stitch]
    show (if segment.offset.toNat ≠ assembly.expected then _ else _) = _
    split
    · rfl
    · exact ih ⟨segment :: assembly.segments, assembly.expected + segment.data.length⟩

theorem outcome_unplaced (contents : List LeafValue) :
    key.outcome (contents.map LeafValue.unplaced) =
      (key.outcome contents).map (·.map LongValue.unplaced) := by
  have hfind : (contents.map LeafValue.unplaced).find? (·.key == key.anchor) =
      (contents.find? (·.key == key.anchor)).map LeafValue.unplaced := List.find?_map
  have hstitch := stitch_unplaced ⟨[], 0⟩ (key.segmentsIn contents)
  rw [outcome, outcome, hfind, segmentsIn_unplaced]
  cases contents.find? (·.key == key.anchor) with
  | none => rfl
  | some anchor =>
    show Except.map _ (LongValue.stitch ⟨[].map Segment.unplaced, 0⟩ _) = _
    rw [hstitch]
    cases LongValue.stitch ⟨[], 0⟩ (key.segmentsIn contents) with
    | error e => rfl
    | ok assembly =>
      simp only [Except.map, Option.map_some, LongValue.unplaced, List.map_reverse]
      rfl

end LongValueKey

namespace Forest

variable {forest other : Forest} {root root' : PageNumber} {key : LongValueKey}

/-- Two lists in the order of their keys with the same bindings are the same up to locations. -/
theorem unplaced_eq_of_binding {values others : List LeafValue}
    (hvalues : values.Pairwise fun value later => KeyOrder.forward.Lt value.key later.key)
    (hothers : others.Pairwise fun value later => KeyOrder.forward.Lt value.key later.key)
    (hsame : ∀ binding, binding ∈ values.map LeafValue.binding ↔
      binding ∈ others.map LeafValue.binding) :
    values.map LeafValue.unplaced = others.map LeafValue.unplaced := by
  have hsorted : ∀ {values : List LeafValue},
      (values.Pairwise fun value later => KeyOrder.forward.Lt value.key later.key) →
        (values.map LeafValue.binding).Pairwise fun a b => KeyOrder.forward.Lt a.1 b.1 :=
    fun h => List.pairwise_map.mpr h
  have hnodup : ∀ {bindings : List (Key × Bytes)},
      (bindings.Pairwise fun a b => KeyOrder.forward.Lt a.1 b.1) → bindings.Nodup :=
    fun h => h.imp fun hlt heq => hlt.ne (congrArg Prod.fst heq)
  -- There is only one way to put the same bindings in the order of their keys.
  have hperm := (List.perm_ext_iff_of_nodup (hnodup (hsorted hvalues))
    (hnodup (hsorted hothers))).mpr hsame
  have hbindings : values.map LeafValue.binding = others.map LeafValue.binding :=
    List.Perm.eq_of_pairwise (fun _ _ _ _ hlt hgt => absurd hgt.le (KeyOrder.not_le.mpr hlt))
      (hsorted hvalues) (hsorted hothers) hperm
  have hunplaced : LeafValue.unplaced =
      (fun binding => ⟨⟨binding.1, binding.2, .none⟩, .longValue⟩) ∘ LeafValue.binding := rfl
  rw [hunplaced, ← List.map_map, ← List.map_map, hbindings]

/-- **Opening a long value gives exactly what its tree stores of it.** Without an anchor there is no
long value. With one there are its segments, in the order of their keys, which is that of their
offsets: if they follow each other without a gap, they are the long value, with the declared size
of the anchor and as many bytes as its size says; and if not, the first one that does not start
where it should is named. Nothing else in the tree matters, and neither do its pages: two trees that
hold the same data under the same keys give the same, up to locations. -/
theorem longValue_eq_segments (h : forest.IsLongValueTree root) (hkey : key.bytes.length = 4) :
    let contents := forest.valuesBelow maxDepth root
    let segments := key.segmentsIn contents
    segments.Pairwise (·.offset < ·.offset) ∧
    ((∀ value ∈ contents, value.key ≠ key.anchor) →
      (forest.longValue root key).value = .ok none) ∧
    (∀ anchor ∈ contents, anchor.key = key.anchor →
      (LongValue.RunsFrom 0 segments →
        ∃ value : LongValue, (forest.longValue root key).value = .ok (some value) ∧
          value.key = key ∧ value.declared = anchor.data.u32At 4 ∧ value.segments = segments ∧
          value.toBytes = segments.flatMap (·.data) ∧ value.toBytes.length = value.size) ∧
      (¬ LongValue.RunsFrom 0 segments →
        ∃ before segment later, segments = before ++ segment :: later ∧
          LongValue.RunsFrom 0 before ∧ segment.offset.toNat ≠ LongValue.extent before ∧
          (forest.longValue root key).value =
            .error (.segmentGap (.ofNat (LongValue.extent before)) segment.offset))) ∧
    ∀ (other : Forest) (root' : PageNumber), other.IsLongValueTree root' →
      (∀ binding, binding ∈ contents.map LeafValue.binding ↔
        binding ∈ (other.valuesBelow maxDepth root').map LeafValue.binding) →
      (forest.longValue root key).value.map (·.map LongValue.unplaced) =
        (other.longValue root' key).value.map (·.map LongValue.unplaced) := by
  intro contents segments
  have hvalue : (forest.longValue root key).value = key.outcome contents := value_longValue h hkey
  refine ⟨LongValueKey.pairwise_segmentsIn h.increasing, ?_, ?_, ?_⟩
  · exact fun hnone => hvalue.trans (LongValueKey.outcome_of_no_anchor hnone)
  · intro anchor hanchor hanchorKey
    have hfind := h.find?_anchor hanchor hanchorKey
    refine ⟨fun hruns => ?_, fun hgap => ?_⟩
    · refine ⟨⟨key, anchor.data.u32At 4, segments⟩, ?_, rfl, rfl, rfl, rfl, ?_⟩
      · exact hvalue.trans (LongValueKey.outcome_of_runsFrom hfind hruns)
      · exact (LongValue.size_of_runsFrom hruns).symm
    · obtain ⟨before, segment, later, hsplit, hruns, hoffset⟩ :=
        (LongValue.runsFrom_or_exists_gap 0 segments).resolve_left hgap
      rw [Nat.zero_add] at hoffset
      refine ⟨before, segment, later, hsplit, hruns, hoffset, ?_⟩
      exact hvalue.trans (LongValueKey.outcome_of_gap hfind hsplit hruns hoffset)
  · intro other root' hother hsame
    rw [hvalue, value_longValue hother hkey, ← LongValueKey.outcome_unplaced,
      ← LongValueKey.outcome_unplaced, unplaced_eq_of_binding h.increasing hother.increasing hsame]

/-! ### A long value across two leaves

The first long value has its anchor and its first segment on one leaf and its second segment on the
next, with a key in between that is too long for a segment. The second one starts too late. The
other tree holds the same, cut in another place. -/

def sampleLeaf (next : PageNumber) (bindings : List (Bytes × Bytes)) : PageImage where
  size := 96
  extended := false
  flags := 0x82
  previous := 0
  next := next
  values := ⟨0, []⟩ :: bindings.map fun binding => ValueImage.plain binding.1 binding.2

def sampleBindings : List (Bytes × Bytes) := [
  ([0, 0, 0, 7], leBytes 4 1 ++ leBytes 4 6),
  ([0, 0, 0, 7, 0, 0, 0, 0], [0x61, 0x62, 0x63]),
  ([0, 0, 0, 7, 0, 0, 0, 0, 1], [0x2d]),
  ([0, 0, 0, 7, 0, 0, 0, 3], [0x64, 0x65]),
  ([0, 0, 0, 8], leBytes 4 1 ++ leBytes 4 1),
  ([0, 0, 0, 8, 0, 0, 0, 1], [0x66])]

/-- A root 4 over two leaves: the first `count` bindings are on page `first`, the others on page
`second`. -/
def cutPages (count : Nat) (first second : PageNumber) (separator : Bytes) : MemoryPages where
  pageSize := 96
  slots := 10
  stored := [
    (4, (PageImage.branch 96 [(separator, first), ([], second)]).bytes),
    (first, (sampleLeaf second (sampleBindings.take count)).bytes),
    (second, (sampleLeaf 0 (sampleBindings.drop count)).bytes)]

def cutForest (count : Nat) (first second : PageNumber) (separator : Bytes) : Forest :=
  ⟨(cutPages count first second separator).source, .standard⟩

theorem longValue_eq_segments_sample :
    let forest := cutForest 3 5 6 [0, 0, 0, 7, 0, 0, 0, 1]
    let other := cutForest 2 9 7 [0, 0, 0, 7, 0, 0, 0, 0]
    forest.IsLongValueTree 4 ∧ other.IsLongValueTree 4 ∧
      (∃ value, (forest.longValue 4 ⟨[0, 0, 0, 7]⟩).value = .ok (some value) ∧
        value.declared = 6 ∧ value.toBytes = [0x61, 0x62, 0x63, 0x64, 0x65] ∧ value.size = 5) ∧
      (forest.longValue 4 ⟨[0, 0, 0, 7]⟩).value.map (·.map LongValue.unplaced) =
        (other.longValue 4 ⟨[0, 0, 0, 7]⟩).value.map (·.map LongValue.unplaced) ∧
      (forest.longValue 4 ⟨[0, 0, 0, 8]⟩).value = .error (.segmentGap 0 1) ∧
      (forest.longValue 4 ⟨[0, 0, 0, 9]⟩).value = .ok none := by
  intro forest other
  have hforest : forest.IsLongValueTree 4 := by
    refine ⟨?_, ?_, ?_, ?_, ?_, ?_⟩ <;> decide +kernel
  have hother : other.IsLongValueTree 4 := by
    refine ⟨?_, ?_, ?_, ?_, ?_, ?_⟩ <;> decide +kernel
  have hsame : (forest.valuesBelow maxDepth 4).map LeafValue.binding =
      (other.valuesBelow maxDepth 4).map LeafValue.binding := by decide +kernel
  have hseven : (LongValueKey.mk [0, 0, 0, 7]).bytes.length = 4 := rfl
  have height : (LongValueKey.mk [0, 0, 0, 8]).bytes.length = 4 := rfl
  have hnine : (LongValueKey.mk [0, 0, 0, 9]).bytes.length = 4 := rfl
  obtain ⟨_, _, hopened, hplaces⟩ := longValue_eq_segments hforest hseven
  refine ⟨hforest, hother, ?_, ?_, ?_, ?_⟩
  · have hanchor : ∃ anchor ∈ forest.valuesBelow maxDepth 4,
        anchor.key = ⟨[0, 0, 0, 7]⟩ ∧ anchor.data.u32At 4 = 6 := by decide +kernel
    obtain ⟨anchor, hmem, hkey, hanchorSize⟩ := hanchor
    obtain ⟨value, hvalue, _, hdeclared, _, hbytes, hsize⟩ :=
      (hopened anchor hmem hkey).1 (by decide +kernel)
    have htext : value.toBytes = [0x61, 0x62, 0x63, 0x64, 0x65] :=
      hbytes.trans (by decide +kernel)
    rw [htext] at hsize
    exact ⟨value, hvalue, hdeclared.trans hanchorSize, htext, hsize.symm⟩
  · exact hplaces other 4 hother fun binding => iff_of_eq (congrArg (binding ∈ ·) hsame)
  · have hanchor : ∃ anchor ∈ forest.valuesBelow maxDepth 4, anchor.key = ⟨[0, 0, 0, 8]⟩ := by
      decide +kernel
    obtain ⟨anchor, hmem, hkey⟩ := hanchor
    have hsegments : (LongValueKey.mk [0, 0, 0, 8]).segmentsIn (forest.valuesBelow maxDepth 4) =
        [⟨1, [0x66], ⟨6, 66, 3, 10⟩⟩] := by decide +kernel
    obtain ⟨_, _, hgapped, _⟩ := longValue_eq_segments hforest height
    obtain ⟨before, segment, later, hsplit, _, _, hvalue⟩ :=
      (hgapped anchor hmem hkey).2 (by decide +kernel)
    rw [hsegments, List.singleton_eq_append_iff] at hsplit
    rcases hsplit with ⟨rfl, hlast⟩ | ⟨_, hlast⟩
    · cases hlast
      exact hvalue
    · cases hlast
  · obtain ⟨_, hnone, _⟩ := longValue_eq_segments hforest hnine
    exact hnone (by decide +kernel)

end Forest

end EseReader
