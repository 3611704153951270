/-
  Storage.Compaction — compactions keep what a version says.

  `PickCompaction` takes tables of one level and everything they overlap of the
  next, `DoCompaction` merges them into new tables of that next level.  Of every
  key the newest entry stays, unless it is a deletion that no deeper level needs.
-/
import Flotilla.Storage.Versions

namespace Flotilla.Storage

open SortedRuns
open SortedRuns (Newest Newer)

/-! ## What is picked. -/

/-- The inputs of a compaction, and the tables that stay. -/
structure Picked (v : Version) (c : Compaction) : Prop where
  positive : 0 < c.outputLevel
  below : c.outputLevel < kNumLevels
  source : ∀ h ∈ c.inputs, h ∈ v.level (c.outputLevel - 1) ∨ h ∈ v.level c.outputLevel
  upper : ∀ a ∈ v.level (c.outputLevel - 1), a ∉ c.inputs →
    ∀ h ∈ c.inputs, h ∈ v.level (c.outputLevel - 1) → Apart a h
  side : ∀ f ∈ v.level c.outputLevel, f ∉ c.inputs →
    (∀ h ∈ c.inputs, f.largest < h.smallest) ∨ (∀ h ∈ c.inputs, h.largest < f.smallest)

theorem foldl_min_le {s : Key} {hs : List TableHandle} :
    hs.foldl (fun s x => min s x.smallest) s ≤ s ∧
      ∀ x ∈ hs, hs.foldl (fun s x => min s x.smallest) s ≤ x.smallest :=
  @le_foldl_max TableHandle Keyᵒᵈ _ TableHandle.smallest s hs

section

variable {v : Version} {n : Nat}

theorem one_side (hv : VersionOk v n) {l : Nat} (hl : 0 < l) {smallest largest : Key}
    {uppers : List TableHandle}
    (huppers : ∀ x ∈ uppers, smallest ≤ x.smallest ∧ x.largest ≤ largest) {f : TableHandle}
    (hf : f ∈ v.level l)
    (hout : f ∉ uppers ++ (v.level l).filter (overlaps smallest largest)) :
    (∀ h ∈ uppers ++ (v.level l).filter (overlaps smallest largest), f.largest < h.smallest) ∨
      ∀ h ∈ uppers ++ (v.level l).filter (overlaps smallest largest), h.largest < f.smallest := by
  have hnot : ¬ (smallest ≤ f.largest ∧ f.smallest ≤ largest) := by
    intro hover
    apply hout
    apply mem_append_right
    exact mem_filter.mpr ⟨hf, by simpa [overlaps] using hover⟩
  have hrange := (hv.handle l f hf).range
  -- another table of the level is on the far side, or it would not meet the range
  have hother : ∀ h ∈ (v.level l).filter (overlaps smallest largest),
      Apart f h ∧ smallest ≤ h.largest ∧ h.smallest ≤ largest := by
    intro h hh
    obtain ⟨hhl, hover⟩ := mem_filter.mp hh
    have hne : f ≠ h := by
      rintro rfl
      exact hout (mem_append_right _ hh)
    have hover : smallest ≤ h.largest ∧ h.smallest ≤ largest := by simpa [overlaps] using hover
    exact ⟨(eq_or_apart (hv.deeper l hl) hf hhl).resolve_left hne, hover⟩
  by_cases hsmall : smallest ≤ f.largest
  · have hgt : largest < f.smallest := lt_of_not_ge fun h => hnot ⟨hsmall, h⟩
    refine .inr fun h hh => ?_
    rcases mem_append.mp hh with hh | hh
    · exact lt_of_le_of_lt (huppers h hh).2 hgt
    · obtain ⟨hapart, _, hle⟩ := hother h hh
      rcases hapart with hlt | hlt
      · have := lt_of_le_of_lt hrange (lt_of_lt_of_le hlt hle)
        exact absurd (lt_trans this hgt) (lt_irrefl _)
      · exact hlt
  · have hlt : f.largest < smallest := lt_of_not_ge hsmall
    refine .inl fun h hh => ?_
    rcases mem_append.mp hh with hh | hh
    · exact lt_of_lt_of_le hlt (huppers h hh).1
    · obtain ⟨hapart, hle, _⟩ := hother h hh
      rcases hapart with hlt' | hlt'
      · exact hlt'
      · have := lt_of_le_of_lt hle (lt_of_lt_of_le hlt' hrange)
        exact absurd (lt_trans this hlt) (lt_irrefl _)

variable {c : Compaction} {opts : Options}

theorem pickLevel0_picked (hv : VersionOk v n) (h : pickLevel0 v = some c) :
    Picked v c := by
  unfold pickLevel0 at h
  cases hfiles : v.level 0 with
  | nil =>
    rw [hfiles] at h
    cases h
  | cons x hs =>
    rw [hfiles] at h
    cases h
    constructor
    case positive => exact Nat.one_pos
    case below =>
      show 1 < kNumLevels
      decide
    case source =>
      intro h hh
      show h ∈ v.level 0 ∨ h ∈ v.level 1
      rcases mem_append.mp hh with hh | hh
      · exact .inl (hfiles ▸ hh)
      · exact .inr (mem_filter.mp hh).1
    case upper =>
      intro a ha hout
      have ha : a ∈ v.level 0 := ha
      rw [hfiles] at ha
      exact absurd (mem_append_left _ ha) hout
    case side =>
      intro f hf hout
      apply one_side hv Nat.one_pos _ hf hout
      intro y hy
      rcases mem_cons.mp hy with rfl | hy
      · exact ⟨foldl_min_le.1, le_foldl_max.1⟩
      · exact ⟨foldl_min_le.2 y hy, le_foldl_max.2 y hy⟩

theorem pickLevel_picked (hv : VersionOk v n) {compactPtr : Nat → Nat} {l : Nat} (hl : 0 < l)
    (hlt : l + 1 < kNumLevels) (h : pickLevel opts v compactPtr l = some c) : Picked v c := by
  unfold pickLevel at h
  dsimp only at h
  split at h
  · cases h
  · obtain ⟨pick, hpick, rfl⟩ := map_eq_some_iff.mp h
    have hmem : pick ∈ v.level l := mem_of_getElem? hpick
    constructor
    case positive => exact Nat.succ_pos l
    case below => exact hlt
    case source =>
      intro h hh
      show h ∈ v.level l ∨ h ∈ v.level (l + 1)
      rcases mem_cons.mp hh with rfl | hh
      · exact .inl hmem
      · exact .inr (mem_filter.mp hh).1
    case upper =>
      intro a ha hout h hh hhl
      have ha : a ∈ v.level l := ha
      have hhl : h ∈ v.level l := hhl
      have hne : a ≠ h := by
        rintro rfl
        exact hout hh
      exact (eq_or_apart (hv.deeper l hl) ha hhl).resolve_left hne
    case side =>
      intro f hf hout
      have hself : ∀ y ∈ [pick], pick.smallest ≤ y.smallest ∧ y.largest ≤ pick.largest := by
        intro y hy
        rw [mem_singleton.mp hy]
        exact ⟨le_refl _, le_refl _⟩
      exact one_side hv (Nat.succ_pos l) hself hf hout

theorem pickCompaction_cases {compactPtr next : Nat → Nat}
    (h : pickCompaction opts v compactPtr = .found c next) : pickLevel0 v = some c ∨
      ∃ l, 0 < l ∧ l + 1 < kNumLevels ∧ pickLevel opts v compactPtr l = some c := by
  unfold pickCompaction at h
  split at h
  · cases hpick : pickLevel0 v with
    | none =>
      rw [hpick] at h
      cases h
    | some c' =>
      rw [hpick] at h
      cases h
      exact .inl rfl
  · split at h
    · cases h
    · next l c' hfound =>
        cases h
        obtain ⟨m, hm, hpick⟩ := List.exists_of_findSome?_eq_some hfound
        obtain ⟨c'', hpick, heq⟩ := map_eq_some_iff.mp hpick
        cases heq
        rw [List.mem_range'_1] at hm
        exact .inr ⟨l, by omega, by unfold kNumLevels at *; omega, hpick⟩

theorem pickCompaction_picked (hv : VersionOk v n) {compactPtr next : Nat → Nat}
    (h : pickCompaction opts v compactPtr = .found c next) : Picked v c := by
  rcases pickCompaction_cases h with hpick | ⟨l, hpos, hlt, hpick⟩
  · exact pickLevel0_picked hv hpick
  · exact pickLevel_picked hv hpos hlt hpick

theorem pickCompaction_defined (htrigger : 1 ≤ opts.l0CompactionTrigger) (v : Version)
    (compactPtr : Nat → Nat) : pickCompaction opts v compactPtr ≠ .undefined := by
  unfold pickCompaction pickLevel0
  split
  · next hle =>
      cases hfiles : v.level 0 with
      | nil =>
        rw [hfiles, length_nil] at hle
        omega
      | cons h hs =>
        intro hbad
        cases hbad
  · split
    · intro hbad
      cases hbad
    · intro hbad
      cases hbad

end

/-! ## What is merged. -/

section

variable {v : Version} {n : Nat} {c : Compaction}

def Compaction.entries (c : Compaction) : List Entry := c.inputs.flatMap TableHandle.entries

/-- What `BuildTableFromIterator` writes of them. -/
def Compaction.kept (v : Version) (c : Compaction) : List Entry :=
  (SortedRuns.firsts (SortedRuns.merge (c.inputs.map TableHandle.entries))).filter
    fun e => !dropsTombstone c.outputLevel v e

variable {e : Entry}

theorem Picked.mem_entries (hp : Picked v c) (he : e ∈ c.entries) :
    e ∈ v.entries := by
  obtain ⟨h, hh, he⟩ := mem_flatMap.mp he
  rcases hp.source h hh with hl | hl
  · exact Storage.mem_entries.mpr ⟨_, h, hl, he⟩
  · exact Storage.mem_entries.mpr ⟨_, h, hl, he⟩

theorem Picked.handle (hp : Picked v c) (hv : VersionOk v n) {h : TableHandle}
    (hh : h ∈ c.inputs) : HandleOk h := by
  rcases hp.source h hh with hl | hl
  · exact hv.handle _ h hl
  · exact hv.handle _ h hl

theorem Picked.merge_run (hp : Picked v c) (hv : VersionOk v n) :
    SortedRuns.Run (SortedRuns.merge (c.inputs.map TableHandle.entries)) := by
  apply SortedRuns.merge_run
  intro es hes
  obtain ⟨h, hh, rfl⟩ := mem_map.mp hes
  exact (hp.handle hv hh).sorted.imp SortedRuns.Lt.le

theorem mem_merge_inputs :
    e ∈ SortedRuns.merge (c.inputs.map TableHandle.entries) ↔ e ∈ c.entries := by
  rw [mem_merge]
  unfold Compaction.entries
  rw [mem_flatMap]
  simp

theorem Picked.mem_firsts (hp : Picked v c) (hv : VersionOk v n) :
    e ∈ SortedRuns.firsts (SortedRuns.merge (c.inputs.map TableHandle.entries)) ↔
      Newest c.entries e := by
  have hrun := hp.merge_run hv
  have hnewest : ∀ {k : Key} {x : Entry}, (SortedRuns.merge (c.inputs.map TableHandle.entries)).find?
      (fun y => @decide (SortedRuns.key y = k) (LinearOrder.toDecidableEq _ _)) = some x →
      Newest c.entries x ∧ x.key = k := by
    intro k x hx
    obtain ⟨⟨hmem, hnew⟩, hk⟩ := hrun.find?_newest hx
    exact ⟨⟨mem_merge_inputs.mp hmem, fun y hy => hnew y (mem_merge_inputs.mpr hy)⟩, hk⟩
  rw [mem_firsts_iff hrun]
  constructor
  · exact fun hfind => (hnewest hfind).1
  · intro he
    obtain ⟨x, hx⟩ := exists_find? ⟨e, mem_merge_inputs.mpr he.1, rfl⟩
    obtain ⟨hxnew, hk⟩ := hnewest hx
    rw [hx, hv.newest_eq (fun _ => hp.mem_entries) hxnew he hk]

theorem Picked.mem_kept (hp : Picked v c) (hv : VersionOk v n) :
    e ∈ c.kept v ↔ Newest c.entries e ∧ dropsTombstone c.outputLevel v e = false := by
  unfold Compaction.kept
  rw [mem_filter, hp.mem_firsts hv]
  simp

theorem Picked.kept_sorted (hp : Picked v c) (hv : VersionOk v n) :
    (c.kept v).Pairwise (fun a b => a.key < b.key) :=
  (firsts_sorted (hp.merge_run hv)).filter _

end

/-! ## Tables. -/

theorem bytesWritten_add (opts : TableOptions) (b : TableBuilder) (e : Entry) :
    (b.add opts e).bytesWritten = b.bytesWritten + (appendEntry e).length := by
  have hpush : (b.push e).bytesWritten = b.bytesWritten + (appendEntry e).length := by
    show b.file.length + (b.block ++ appendEntry e).length = _
    rw [length_append]
    unfold TableBuilder.bytesWritten
    omega
  unfold TableBuilder.add
  split
  · rw [← hpush]
    unfold TableBuilder.flushBlock
    split
    · rfl
    · show ((b.push e).file ++ (b.push e).block).length + 0 = _
      rw [length_append]
      rfl
  · exact hpush

section

variable {opts : TableOptions} {maxBytes : Nat}

theorem flatten_cutTables (b : TableBuilder) (es rest : List Entry) :
    (cutTables opts maxBytes b es rest).flatten = es ++ rest := by
  induction rest generalizing b es with
  | nil =>
    unfold cutTables
    split
    · next h => rw [h]; rfl
    · rw [flatten_singleton, append_nil]
  | cons e rest ih =>
    unfold cutTables
    split
    · rw [flatten_cons, ih, nil_append, append_assoc, singleton_append]
    · rw [ih, append_assoc, singleton_append]

theorem mem_cutTables {b : TableBuilder} {es rest : List Entry}
    (hb : b.bytesWritten = (encodeBlock es).length)
    (hes : es = [] ∨ (encodeBlock es).length < maxBytes) {t : List Entry}
    (ht : t ∈ cutTables opts maxBytes b es rest) :
    ∃ init e, t = init ++ [e] ∧ (init = [] ∨ (encodeBlock init).length < maxBytes) := by
  induction rest generalizing b es with
  | nil =>
    unfold cutTables at ht
    split at ht
    · cases ht
    · next hne =>
        rw [mem_singleton.mp ht]
        refine ⟨es.dropLast, es.getLast hne, (List.dropLast_append_getLast hne).symm, .inr ?_⟩
        have hlt := hes.resolve_left hne
        have hlen := congrArg List.length (encodeBlock_concat es.dropLast (es.getLast hne))
        rw [List.dropLast_append_getLast, length_append] at hlen
        omega
  | cons e rest ih =>
    have hadd : (b.add opts e).bytesWritten = (encodeBlock (es ++ [e])).length := by
      rw [bytesWritten_add, hb, encodeBlock_concat, length_append]
    unfold cutTables at ht
    split at ht
    · rcases mem_cons.mp ht with rfl | ht
      · exact ⟨es, e, rfl, hes⟩
      · exact ih rfl (.inl rfl) ht
    · next hlt => exact ih hadd (.inr (by omega)) ht

end

/-- The tables that are written, with numbers from `n` up to `n'`. -/
structure Outputs (kept : List Entry) (n n' : Nat) (outs : List TableHandle) : Prop where
  entries : outs.flatMap TableHandle.entries = kept
  handle : ∀ h ∈ outs, HandleOk h
  edges : ∀ h ∈ outs, (∃ e ∈ h.entries, h.smallest = e.key) ∧ ∃ e ∈ h.entries, h.largest = e.key
  apart : outs.Pairwise (fun a b => a.largest < b.smallest)
  numbers : outs.Pairwise (fun a b => a.number < b.number)
  fresh : ∀ h ∈ outs, n ≤ h.number ∧ h.number < n'

theorem Outputs.mem_kept {kept : List Entry} {n n' : Nat} {outs : List TableHandle}
    (hout : Outputs kept n n' outs) {o : TableHandle} (ho : o ∈ outs) {e : Entry}
    (he : e ∈ o.entries) : e ∈ kept := by
  rw [← hout.entries]
  exact mem_flatMap.mpr ⟨o, ho, he⟩

variable {e : Entry} {es : List Entry} {opts : TableOptions} {files : List TableHandle} {l : Nat}
  {v : Version}

theorem sorted_bounds (hsorted : es.Pairwise (fun a b => a.key < b.key)) (he : e ∈ es) :
    firstKey es ≤ e.key ∧ e.key ≤ (es.getLast?.map Entry.key).getD [] := by
  constructor
  · cases es with
    | nil => cases he
    | cons x es =>
      show x.key ≤ e.key
      rcases mem_cons.mp he with rfl | he
      · exact le_refl _
      · exact le_of_lt ((pairwise_cons.mp hsorted).1 e he)
  · have hne := List.ne_nil_of_mem he
    rw [List.getLast?_eq_some_getLast hne]
    show e.key ≤ (es.getLast hne).key
    rw [← List.dropLast_append_getLast hne] at he hsorted
    rcases mem_append.mp he with he | he
    · exact le_of_lt ((pairwise_append.mp hsorted).2.2 e he _ (mem_singleton_self _))
    · rw [mem_singleton.mp he]

theorem finished_table (hne : es ≠ []) (hsorted : es.Pairwise (fun a b => a.key < b.key))
    (hfits : TableFits opts es) (level number : Nat) :
    ∃ t, openTable (buildTable opts es).1 = some t ∧
      ∀ h : TableHandle, h = ⟨{ (buildTable opts es).2 with number := number, level := level }, t⟩ →
        h.entries = es ∧ HandleOk h ∧ (∃ e ∈ es, h.smallest = e.key) ∧
        (∃ e ∈ es, h.largest = e.key) := by
  obtain ⟨t, hopen, hscan, _, _, hfind⟩ := openTable_build hfits
  obtain ⟨hsmallest, hlargest⟩ := buildTable_meta opts es
  refine ⟨t, hopen, ?_⟩
  rintro h rfl
  have hfirst : ∃ e ∈ es, (buildTable opts es).2.smallest = e.key := by
    rw [hsmallest]
    exact firstKey_mem hne
  have hlast : ∃ e ∈ es, (buildTable opts es).2.largest = e.key := by
    rw [hlargest, List.getLast?_eq_some_getLast hne]
    exact ⟨es.getLast hne, List.getLast_mem hne, rfl⟩
  have hbounds : ∀ e ∈ es, (buildTable opts es).2.smallest ≤ e.key ∧
      e.key ≤ (buildTable opts es).2.largest := by
    intro e he
    rw [hsmallest, hlargest]
    exact sorted_bounds hsorted he
  refine ⟨hscan, ?_, hfirst, hlast⟩
  constructor
  case sorted =>
    show t.newIterator.Pairwise SortedRuns.Lt
    rw [hscan]
    exact hsorted.imp Or.inl
  case reads =>
    intro key
    show t.get key = t.newIterator.find? _
    rw [hscan]
    exact (hfind (hsorted.imp le_of_lt) key).2
  case range =>
    obtain ⟨e, he, _⟩ := hfirst
    exact le_trans (hbounds e he).1 (hbounds e he).2
  case bounds =>
    show ∀ e ∈ t.newIterator, _
    rw [hscan]
    exact hbounds

theorem finishTables_outputs {tables : List (List Entry)} (hne : ∀ t ∈ tables, t ≠ [])
    (hfits : ∀ t ∈ tables, TableFits opts t)
    (hsorted : tables.flatten.Pairwise (fun a b => a.key < b.key)) (level n : Nat) :
    ∃ outs, finishTables opts level n tables = some outs ∧
      Outputs tables.flatten n (n + tables.length) outs := by
  induction tables generalizing n with
  | nil =>
    refine ⟨[], rfl, rfl, ?_, ?_, .nil, .nil, ?_⟩
    · exact List.forall_mem_nil _
    · exact List.forall_mem_nil _
    · exact List.forall_mem_nil _
  | cons es tables ih =>
    obtain ⟨hes, hrest, hacross⟩ := pairwise_append.mp hsorted
    obtain ⟨t, hopen, hfinished⟩ := finished_table (hne es mem_cons_self) hes
      (hfits es mem_cons_self) level n
    obtain ⟨hentries, hok, hfirst, hlast⟩ := hfinished _ rfl
    obtain ⟨outs, hfinish, hout⟩ := ih (fun t ht => hne t (mem_cons_of_mem es ht))
      (fun t ht => hfits t (mem_cons_of_mem es ht)) hrest (n + 1)
    refine ⟨_ :: outs, by rw [finishTables, hopen, bind_some, hfinish, map_some], ?_⟩
    constructor
    case entries => rw [flatMap_cons, hentries, hout.entries, flatten_cons]
    case handle =>
      intro h hh
      rcases mem_cons.mp hh with rfl | hh
      · exact hok
      · exact hout.handle h hh
    case edges =>
      intro h hh
      rcases mem_cons.mp hh with rfl | hh
      · rw [hentries]
        exact ⟨hfirst, hlast⟩
      · exact hout.edges h hh
    case apart =>
      refine pairwise_cons.mpr ⟨fun h hh => ?_, hout.apart⟩
      obtain ⟨x, hx, hlarge⟩ := hlast
      obtain ⟨y, hy, hsmall⟩ := (hout.edges h hh).1
      rw [hlarge, hsmall]
      apply hacross x hx y
      rw [← hout.entries]
      exact mem_flatMap.mpr ⟨h, hh, hy⟩
    case numbers =>
      refine pairwise_cons.mpr ⟨fun h hh => ?_, hout.numbers⟩
      exact (hout.fresh h hh).1
    case fresh =>
      intro h hh
      rw [length_cons]
      rcases mem_cons.mp hh with rfl | hh
      · show n ≤ n ∧ n < n + (tables.length + 1)
        omega
      · have := hout.fresh h hh
        omega

/-- `Table::Open` accepts the file with these entries. -/
def opens (opts : Options) (es : List Entry) : Bool :=
  (openTable (buildTable opts.table es).1).isSome

theorem finishTables_isSome {opts : Options} (level n : Nat) (tables : List (List Entry)) :
    (finishTables opts.table level n tables).isSome ↔ ∀ es ∈ tables, opens opts es = true := by
  induction tables generalizing n with
  | nil => simp [finishTables]
  | cons es tables ih =>
    rw [List.forall_mem_cons, ← ih (n + 1)]
    show ((openTable (buildTable opts.table es).1).bind _).isSome ↔
      (openTable (buildTable opts.table es).1).isSome = true ∧ _
    cases openTable (buildTable opts.table es).1 with
    | none | some t => simp

/-- Every table that can be cut from entries with `S` fits: keys that ascend, and less than
`maxOutputFileBytes` without the last of them. -/
def TablesFit (opts : Options) (S : Entry → Prop) : Prop :=
  ∀ init e, (init ++ [e]).Pairwise (fun a b => a.key < b.key) → (∀ x ∈ init ++ [e], S x) →
    (init = [] ∨ (encodeBlock init).length < opts.maxOutputFileBytes) →
    TableFits opts.table (init ++ [e])

section

variable {v : Version} {n : Nat} {c : Compaction} {opts : Options}

theorem TablesFit.mono {S S' : Entry → Prop} (h : TablesFit opts S) (hsub : ∀ e, S' e → S e) :
    TablesFit opts S' := fun init e hsorted hmem hinit =>
  h init e hsorted (fun x hx => hsub x (hmem x hx)) hinit

theorem doCompaction_isSome (n : Nat) :
    (doCompaction opts v n c).isSome ↔ ∀ es ∈ c.tables opts v, opens opts es = true := by
  unfold doCompaction
  rw [Option.isSome_map]
  exact finishTables_isSome _ _ _

theorem flatten_tables : (c.tables opts v).flatten = c.kept v := flatten_cutTables {} [] _

theorem shape_of_mem_tables {t : List Entry} (ht : t ∈ c.tables opts v) : ∃ init e,
    t = init ++ [e] ∧ (init = [] ∨ (encodeBlock init).length < opts.maxOutputFileBytes) :=
  mem_cutTables rfl (.inl rfl) ht

/-- What a compaction writes fits if the entries that it keeps are among entries with `S`. -/
theorem Picked.tableFits (hp : Picked v c) (hv : VersionOk v n) {S : Entry → Prop}
    (hkept : ∀ e ∈ c.kept v, S e) (hfits : TablesFit opts S) :
    ∀ t ∈ c.tables opts v, TableFits opts.table t := by
  intro t ht
  obtain ⟨init, e, rfl, hinit⟩ := shape_of_mem_tables ht
  have hsorted := hp.kept_sorted hv
  rw [← @flatten_tables v c opts] at hsorted hkept
  apply hfits init e ((List.pairwise_flatten.mp hsorted).1 _ ht) _ hinit
  exact fun x hx => hkept x (mem_flatten.mpr ⟨_, ht, hx⟩)

theorem Picked.outputs (hp : Picked v c) (hv : VersionOk v n)
    (hfits : ∀ t ∈ c.tables opts v, TableFits opts.table t) :
    ∃ n' outs, doCompaction opts v n c = some (compactVersion v c outs, n') ∧ n ≤ n' ∧
      Outputs (c.kept v) n n' outs := by
  have hsorted := hp.kept_sorted hv
  rw [← @flatten_tables v c opts] at hsorted
  have hne : ∀ t ∈ c.tables opts v, t ≠ [] := by
    intro t ht
    obtain ⟨init, e, rfl, _⟩ := shape_of_mem_tables ht
    simp
  obtain ⟨outs, hfinish, hout⟩ := finishTables_outputs hne hfits hsorted c.outputLevel n
  rw [flatten_tables] at hout
  refine ⟨_, outs, ?_, Nat.le_add_right n _, hout⟩
  unfold doCompaction
  rw [hfinish, map_some]

end

/-! ## The new version. -/

theorem sortLevel_zero (hnumbers : files.Pairwise (fun a b => a.number ≠ b.number)) :
    (sortLevel 0 files).Pairwise (fun a b => b.number < a.number) := by
  unfold sortLevel
  rw [if_pos rfl]
  have hsorted := List.pairwise_insertionSort (fun a b : TableHandle => b.number ≤ a.number) files
  have hdistinct := ((List.perm_insertionSort (fun a b : TableHandle => b.number ≤ a.number)
    files).pairwise_iff (fun h => Ne.symm h)).mpr hnumbers
  exact (hsorted.and hdistinct).imp fun ⟨hle, hne⟩ => Nat.lt_of_le_of_ne hle (Ne.symm hne)

theorem sortLevel_apart (hl : 0 < l) (hok : ∀ h ∈ files, HandleOk h)
    (hapart : files.Pairwise Apart) :
    (sortLevel l files).Pairwise (fun a b => a.largest < b.smallest) := by
  unfold sortLevel
  rw [if_neg (by omega)]
  have hperm := List.perm_insertionSort (fun a b : TableHandle => a.smallest ≤ b.smallest) files
  have hsorted := List.pairwise_insertionSort (fun a b : TableHandle => a.smallest ≤ b.smallest) files
  have hapart' := (hperm.pairwise_iff .symm).mpr hapart
  apply (hsorted.and hapart').imp_of_mem
  rintro a b _ hb ⟨hle, h | h⟩
  · exact h
  · have hrange := (hok b (hperm.mem_iff.mp hb)).range
    exact absurd (lt_of_le_of_lt (le_trans hle hrange) h) (lt_irrefl _)

theorem mem_sortLevel {h : TableHandle} :
    h ∈ sortLevel l files ↔ h ∈ files := by
  unfold sortLevel
  split
  · exact (List.perm_insertionSort _ _).mem_iff
  · exact (List.perm_insertionSort _ _).mem_iff

section

variable {v : Version} {n n' : Nat} {c : Compaction} {outs : List TableHandle}

variable {l : Nat} {e : Entry}

theorem level_compactVersion (hl : l < v.length) :
    (compactVersion v c outs).level l =
      sortLevel l ((v.level l).filter (fun h => h.number ∉ c.gone) ++
        if l = c.outputLevel then outs else []) := by
  unfold compactVersion Version.level
  rw [List.getElem?_mapIdx, getElem?_eq_getElem hl]
  rfl

section

variable (hp : Picked v c) (hv : VersionOk v n)

include hp hv

theorem Picked.mem_gone {h : TableHandle} (hh : h ∈ v.level l) : h.number ∈ c.gone ↔ h ∈ c.inputs := by
  constructor
  · intro hgone
    obtain ⟨x, hx, hnumber⟩ := mem_map.mp hgone
    rcases hp.source x hx with hl | hl
    · exact (hv.numbers _ l x hl h hh hnumber).2 ▸ hx
    · exact (hv.numbers _ l x hl h hh hnumber).2 ▸ hx
  · exact fun hin => mem_map.mpr ⟨h, hin, rfl⟩

theorem Picked.mem_compactVersion {l : Nat} {h : TableHandle} : h ∈ (compactVersion v c outs).level l ↔
      (h ∈ v.level l ∧ h ∉ c.inputs) ∨ (l = c.outputLevel ∧ h ∈ outs) := by
  have hlevels := hv.levels
  have hbelow := hp.below
  by_cases hl : l < v.length
  · rw [level_compactVersion hl, mem_sortLevel, mem_append, mem_filter]
    constructor
    · rintro (⟨hh, hgone⟩ | hh)
      · have hgone : h.number ∉ c.gone := by simpa using hgone
        exact .inl ⟨hh, fun hin => hgone ((hp.mem_gone hv hh).mpr hin)⟩
      · split at hh
        · next heq => exact .inr ⟨heq, hh⟩
        · cases hh
    · rintro (⟨hh, hin⟩ | ⟨rfl, hh⟩)
      · exact .inl ⟨hh, by simpa using fun hgone => hin ((hp.mem_gone hv hh).mp hgone)⟩
      · rw [if_pos rfl]
        exact .inr hh
  · have hnone : ∀ w : Version, w.length = v.length → w.level l = [] := by
      intro w hw
      unfold Version.level
      rw [List.getElem?_eq_none (by omega)]
      rfl
    rw [hnone _ (by rw [compactVersion, length_mapIdx]), hnone v rfl]
    constructor
    · exact fun hh => (not_mem_nil hh).elim
    · rintro (⟨hh, _⟩ | ⟨rfl, _⟩)
      · exact hh
      · omega

theorem Picked.output_entry (hout : Outputs (c.kept v) n n' outs) {o : TableHandle} (ho : o ∈ outs)
    (he : e ∈ o.entries) : ∃ h ∈ c.inputs, e ∈ h.entries :=
  mem_flatMap.mp ((hp.mem_kept hv).mp (hout.mem_kept ho he)).1.1

theorem Picked.output_apart (hout : Outputs (c.kept v) n n' outs) {f o : TableHandle}
    (hf : f ∈ v.level c.outputLevel) (hin : f ∉ c.inputs) (ho : o ∈ outs) : Apart f o := by
  obtain ⟨⟨x, hx, hsmall⟩, y, hy, hlarge⟩ := hout.edges o ho
  rcases hp.side f hf hin with hside | hside
  · left
    obtain ⟨h, hh, hxh⟩ := hp.output_entry hv hout ho hx
    rw [hsmall]
    exact lt_of_lt_of_le (hside h hh) ((hp.handle hv hh).bounds x hxh).1
  · right
    obtain ⟨h, hh, hyh⟩ := hp.output_entry hv hout ho hy
    rw [hlarge]
    exact lt_of_le_of_lt ((hp.handle hv hh).bounds y hyh).2 (hside h hh)

theorem Picked.newer_input (hl : l < c.outputLevel)
    {a h : TableHandle} (ha : a ∈ v.level l) (hin : a ∉ c.inputs) (hh : h ∈ c.inputs) :
    Newer a.entries h.entries := by
  rcases hp.source h hh with hhl | hhl
  · by_cases heq : l = c.outputLevel - 1
    · subst heq
      intro x hx y hy hk
      have hapart := hp.upper a ha hin h hh hhl
      exact absurd hk (hapart.key_ne (hv.handle _ a ha) (hp.handle hv hh) hx hy)
    · exact hv.newer l _ (by omega) a ha h hhl
  · exact hv.newer l _ hl a ha h hhl

theorem Picked.versionOk (hn : n ≤ n')
    (hout : Outputs (c.kept v) n n' outs) : VersionOk (compactVersion v c outs) n' := by
  have hmem := fun l h => @Picked.mem_compactVersion v n c outs hp hv l h
  have hpos := hp.positive
  have hok : ∀ l, ∀ h ∈ (compactVersion v c outs).level l, HandleOk h := by
    intro l h hh
    rcases (hmem l h).mp hh with ⟨hh, _⟩ | ⟨_, hh⟩
    · exact hv.handle l h hh
    · exact hout.handle h hh
  constructor
  case levels => rw [compactVersion, length_mapIdx, hv.levels]
  case handle => exact hok
  case level0 =>
    rw [level_compactVersion (by rw [hv.levels]; decide), if_neg (by omega), append_nil]
    apply sortLevel_zero
    exact (hv.level0.filter _).imp fun hlt => Nat.ne_of_gt hlt
  case deeper =>
    intro l hl
    by_cases hlt : l < v.length
    · have hok' := hok l
      rw [level_compactVersion hlt] at hok' ⊢
      apply sortLevel_apart hl
      · exact fun h hh => hok' h (mem_sortLevel.mpr hh)
      · refine pairwise_append.mpr ⟨((hv.deeper l hl).filter _).imp Or.inl, ?_, ?_⟩
        · split
          · exact hout.apart.imp Or.inl
          · exact .nil
        · intro f hf o ho
          obtain ⟨hf, hgone⟩ := mem_filter.mp hf
          split at ho
          · next heq =>
              subst heq
              have hgone : f.number ∉ c.gone := by simpa using hgone
              exact hp.output_apart hv hout hf (fun hin => hgone ((hp.mem_gone hv hf).mpr hin)) ho
          · cases ho
    · unfold Version.level
      rw [List.getElem?_eq_none (by rw [compactVersion, length_mapIdx]; omega)]
      exact .nil
  case numbers =>
    intro l m a ha b hb hnumber
    rcases (hmem l a).mp ha with ⟨ha, _⟩ | ⟨hl, ha⟩
    · rcases (hmem m b).mp hb with ⟨hb, _⟩ | ⟨_, hb⟩
      · exact hv.numbers l m a ha b hb hnumber
      · have := hv.fresh l a ha
        have := hout.fresh b hb
        omega
    · rcases (hmem m b).mp hb with ⟨hb, _⟩ | ⟨hm, hb⟩
      · have := hv.fresh m b hb
        have := hout.fresh a ha
        omega
      · refine ⟨hl.trans hm.symm, ?_⟩
        rcases pairwise_mem hout.numbers ha hb with hsame | hlt | hlt
        · exact hsame
        · omega
        · omega
  case fresh =>
    intro l h hh
    rcases (hmem l h).mp hh with ⟨hh, _⟩ | ⟨_, hh⟩
    · exact (hv.fresh l h hh).trans_le hn
    · exact (hout.fresh h hh).2
  case newer0 =>
    intro a ha b hb
    rcases (hmem 0 a).mp ha with ⟨ha, _⟩ | ⟨hl, _⟩
    · rcases (hmem 0 b).mp hb with ⟨hb, _⟩ | ⟨hl, _⟩
      · exact hv.newer0 a ha b hb
      · omega
    · omega
  case newer =>
    intro l m hlm a ha b hb x hx y hy
    rcases (hmem l a).mp ha with ⟨haold, hin⟩ | ⟨hl, hao⟩
    · rcases (hmem m b).mp hb with ⟨hbold, _⟩ | ⟨hm, hbo⟩
      · exact hv.newer l m hlm a haold b hbold x hx y hy
      · obtain ⟨h, hh, hyh⟩ := hp.output_entry hv hout hbo hy
        exact hp.newer_input hv (hm ▸ hlm) haold hin hh x hx y hyh
    · rcases (hmem m b).mp hb with ⟨hbold, _⟩ | ⟨hm, _⟩
      · obtain ⟨h, hh, hxh⟩ := hp.output_entry hv hout hao hx
        rcases hp.source h hh with hhl | hhl
        · exact hv.newer _ m (by omega) h hhl b hbold x hxh y hy
        · exact hv.newer _ m (by omega) h hhl b hbold x hxh y hy
      · omega

end

/-! ## What is read. -/

section

variable (hp : Picked v c) (hv : VersionOk v n)

include hp hv

end

theorem Picked.entries_subset (hp : Picked v c) (hv : VersionOk v n)
    (hout : Outputs (c.kept v) n n' outs) (he : e ∈ (compactVersion v c outs).entries) :
    e ∈ v.entries := by
  obtain ⟨l, h, hh, he⟩ := Storage.mem_entries.mp he
  rcases (hp.mem_compactVersion hv).mp hh with ⟨hh, _⟩ | ⟨_, hh⟩
  · exact Storage.mem_entries.mpr ⟨l, h, hh, he⟩
  · obtain ⟨i, hi, hei⟩ := hp.output_entry hv hout hh he
    exact hp.mem_entries (mem_flatMap.mpr ⟨i, hi, hei⟩)

theorem Picked.dropped (hp : Picked v c) (hv : VersionOk v n) (hout : Outputs (c.kept v) n n' outs)
    (he : Newest v.entries e) (hnot : e ∉ (compactVersion v c outs).entries) :
    e.op = .delete ∧ ∀ x ∈ (compactVersion v c outs).entries, x.key ≠ e.key := by
  obtain ⟨l, h, hh, heh⟩ := Storage.mem_entries.mp he.1
  -- the entry is in an input, or its table would still be there
  have hin : h ∈ c.inputs := by
    by_contra hin
    exact hnot (Storage.mem_entries.mpr ⟨l, h, (hp.mem_compactVersion hv).mpr (.inl ⟨hh, hin⟩), heh⟩)
  have hnewest : Newest c.entries e :=
    ⟨mem_flatMap.mpr ⟨h, hin, heh⟩, fun x hx => he.2 x (hp.mem_entries hx)⟩
  have hmem_out : ∀ {x : Entry}, x ∈ c.kept v → x ∈ (compactVersion v c outs).entries := by
    intro x hx
    rw [← hout.entries] at hx
    obtain ⟨o, ho, hxo⟩ := mem_flatMap.mp hx
    exact Storage.mem_entries.mpr ⟨_, o, (hp.mem_compactVersion hv).mpr (.inr ⟨rfl, ho⟩), hxo⟩
  have hdrop : dropsTombstone c.outputLevel v e = true := by
    by_contra hdrop
    exact hnot (hmem_out ((hp.mem_kept hv).mpr ⟨hnewest, by simpa using hdrop⟩))
  have hdrop : e.op = .delete ∧ 0 < c.outputLevel ∧
      keyMayExistBelow v c.outputLevel e.key = false := by
    simpa [dropsTombstone] using hdrop
  refine ⟨hdrop.1, fun x hx hk => ?_⟩
  obtain ⟨m, f, hf, hxf⟩ := Storage.mem_entries.mp hx
  rcases (hp.mem_compactVersion hv).mp hf with ⟨hf, hfin⟩ | ⟨_, hf⟩
  · rcases Nat.lt_trichotomy m c.outputLevel with hlt | rfl | hgt
    · -- above: the entry would be newer
      have hnewer : e.seqno < x.seqno := hp.newer_input hv hlt hf hfin hin x hxf e heh hk
      have hle : x.seqno ≤ e.seqno := he.2 x (Storage.mem_entries.mpr ⟨m, f, hf, hxf⟩) hk
      omega
    · -- beside: the table is apart from all inputs
      have hxb := (hv.handle _ f hf).bounds x hxf
      have heb := (hp.handle hv hin).bounds e heh
      rw [hk] at hxb
      rcases hp.side f hf hfin with hside | hside
      · exact absurd (lt_of_le_of_lt hxb.2 (lt_of_lt_of_le (hside h hin) heb.1)) (lt_irrefl _)
      · exact absurd (lt_of_le_of_lt heb.2 (lt_of_lt_of_le (hside h hin) hxb.1)) (lt_irrefl _)
    · -- below: the key could not be ruled out
      have hxb := (hv.handle _ f hf).bounds x hxf
      rw [hk] at hxb
      obtain ⟨files, hfiles, hff⟩ := mem_level.mp hf
      have hmay : keyMayExistBelow v c.outputLevel e.key = true := by
        unfold keyMayExistBelow
        apply List.any_eq_true.mpr
        refine ⟨files, mem_iff_getElem?.mpr ⟨m - (c.outputLevel + 1), ?_⟩, ?_⟩
        · rw [getElem?_drop, ← hfiles]
          congr 1
          omega
        · exact List.any_eq_true.mpr ⟨f, hff, by simpa using hxb⟩
      rw [hdrop.2.2] at hmay
      cases hmay
  · -- merged: a key has one newest entry, which was dropped
    have hkept := hout.mem_kept hf hxf
    have heq := hv.newest_eq (fun _ => hp.mem_entries) ((hp.mem_kept hv).mp hkept).1 hnewest hk
    exact hnot (heq ▸ hx)

theorem Picked.read_eq (hp : Picked v c) (hv : VersionOk v n) (hn : n ≤ n')
    (hout : Outputs (c.kept v) n n' outs) (key : Key) :
    (compactVersion v c outs).read key = v.read key := by
  have hv' := hp.versionOk hv hn hout
  unfold Version.read
  cases hfind : v.find key with
  | none =>
    have hnone : (compactVersion v c outs).find key = none := by
      cases hfind' : (compactVersion v c outs).find key with
      | none => rfl
      | some x =>
        obtain ⟨hx, hk⟩ := hv'.find_some hfind'
        exact absurd hk (hv.find_none hfind (hp.entries_subset hv hout hx.1))
    rw [hnone]
  | some e =>
    obtain ⟨he, rfl⟩ := hv.find_some hfind
    by_cases hmem : e ∈ (compactVersion v c outs).entries
    · have hnewest : Newest (compactVersion v c outs).entries e :=
        ⟨hmem, fun x hx => he.2 x (hp.entries_subset hv hout hx)⟩
      rw [hv'.find_of_newest hnewest]
    · obtain ⟨hdelete, hgone⟩ := hp.dropped hv hout he hmem
      cases hfind' : (compactVersion v c outs).find e.key with
      | none =>
        show none = e.resolve
        unfold Entry.resolve
        rw [hdelete]
      | some x =>
        obtain ⟨hx, hk⟩ := hv'.find_some hfind'
        exact absurd hk (hgone x hx.1)

end

/-- **Compactions keep what a version says, and its shape**, if the tables that are cut from the
newest entries of their inputs fit their fields.  They must at least be such that they can be
opened. -/
theorem compaction_preserves {opts : Options} {v : Version} {n : Nat} (hv : VersionOk v n)
    (htrigger : 1 ≤ opts.l0CompactionTrigger) (compactPtr : Nat → Nat) :
    pickCompaction opts v compactPtr ≠ .undefined ∧
    ∀ c next, pickCompaction opts v compactPtr = .found c next →
      ((∀ t ∈ c.tables opts v, TableFits opts.table t) →
        ∃ v' n', doCompaction opts v n c = some (v', n') ∧ VersionOk v' n' ∧
          ∀ key, v'.read key = v.read key) ∧
      ((∃ v' n', doCompaction opts v n c = some (v', n') ∧ VersionOk v' n' ∧
          ∀ key, v'.read key = v.read key) →
        ∀ t ∈ c.tables opts v, opens opts t = true) := by
  refine ⟨pickCompaction_defined htrigger v compactPtr, fun c next hpick => ⟨fun hfits => ?_, ?_⟩⟩
  · have hp := pickCompaction_picked hv hpick
    obtain ⟨n', outs, hdo, hn, hout⟩ := hp.outputs hv hfits
    exact ⟨_, n', hdo, hp.versionOk hv hn hout, hp.read_eq hv hn hout⟩
  · rintro ⟨v', n', hdo, _⟩
    rw [← doCompaction_isSome n, hdo]
    rfl

/-! ## Tables that are small enough, and one that is not. -/

theorem length_encodeBlock_le_of_mem {groups : List (List Entry)} {g : List Entry}
    (hg : g ∈ groups) : (encodeBlock g).length ≤ (encodeBlock groups.flatten).length := by
  obtain ⟨as, bs, rfl⟩ := append_of_mem hg
  rw [← flatMap_encodeBlock, flatMap_append, flatMap_cons, length_append, length_append]
  omega

theorem length_encodeIndex_le (off : Nat) {groups : List (List Entry)}
    (hne : ∀ g ∈ groups, g ≠ []) :
    (encodeIndex (indexOf off groups)).length ≤ (encodeBlock groups.flatten).length := by
  induction groups generalizing off with
  | nil => exact Nat.le_refl 0
  | cons g groups ih =>
    have hrest := ih (off + (encodeBlock g).length) (fun g' hg' => hne g' (mem_cons_of_mem g hg'))
    obtain ⟨e, he, hfirst⟩ := firstKey_mem (hne g mem_cons_self)
    have hle := length_le_encodeBlock he
    show (IndexEntry.encode _ ++ encodeIndex (indexOf _ groups)).length ≤ _
    rw [length_append, length_encode, ← flatMap_encodeBlock, flatMap_cons,
      length_append, flatMap_encodeBlock]
    show 16 + (firstKey g).length + _ ≤ _
    rw [hfirst]
    omega

theorem length_keysOf_le (es : List Entry) : (keysOf es).length ≤ es.length := by
  induction es using List.reverseRecOn with
  | nil => exact Nat.le_refl 0
  | append_singleton es e ih =>
    rw [keysOf_concat, length_append]
    unfold addKey
    split
    · omega
    · rw [length_append, length_singleton, length_singleton]
      omega

theorem tableFits_of_small (hseq : ∀ e ∈ es, e.seqno < 2 ^ 64)
    (hsmall : (encodeBlock es).length * (opts.bloomBitsPerKey + 1) + 72 ≤ 2 ^ 32) :
    TableFits opts es := by
  have hflat := flatten_blocksOf opts es
  have hdata : (encodeBlock es).length + 72 ≤ 2 ^ 32 := by
    rw [Nat.mul_succ] at hsmall
    omega
  have hindex := length_encodeIndex_le 0 (built_blocksOf opts es).nonempty
  rw [hflat] at hindex
  constructor
  case seqnos => exact hseq
  case blocks =>
    intro g hg
    have hle := length_encodeBlock_le_of_mem hg
    rw [hflat] at hle
    omega
  case index => omega
  case bloom =>
    have hkeys : (keysOf es).length * opts.bloomBitsPerKey ≤
        (encodeBlock es).length * opts.bloomBitsPerKey :=
      Nat.mul_le_mul_right _ ((length_keysOf_le es).trans (count_le_encodeBlock es))
    rw [Nat.mul_succ] at hsmall
    unfold bloomSize
    omega
  case offsets => omega

theorem tablesFit_of_small {opts : Options} (hseq : ∀ e ∈ es, e.seqno < 2 ^ 64)
    (hsmall : (encodeBlock es).length * (opts.bloomBitsPerKey + 1) + 72 ≤ 2 ^ 32) :
    TablesFit opts (· ∈ es) := by
  intro init e hsorted hsub _
  have hnodup : (init ++ [e]).Nodup := by
    apply hsorted.imp
    rintro a b hlt rfl
    exact absurd hlt (lt_irrefl _)
  have hle : (encodeBlock (init ++ [e])).length ≤ (encodeBlock es).length := by
    obtain ⟨as, hperm, hsublist⟩ := List.subperm_of_subset hnodup hsub
    rw [encodeBlock, encodeBlock, ← (hperm.flatMap_right appendEntry).length_eq]
    exact (hsublist.flatMap appendEntry).length_le
  apply tableFits_of_small (fun x hx => hseq x (hsub x hx))
  exact (Nat.add_le_add_right (Nat.mul_le_mul_right _ hle) 72).trans hsmall

theorem mem_level0 {h : TableHandle} (hh : h ∈ Version.level (files :: List.replicate 6 []) l) :
    l = 0 ∧ h ∈ files := by
  obtain ⟨fs, hfs, hmem⟩ := mem_level.mp hh
  cases l with
  | zero =>
    cases hfs
    exact ⟨rfl, hmem⟩
  | succ l =>
    rw [List.getElem?_cons_succ] at hfs
    rw [List.eq_of_mem_replicate (mem_of_getElem? hfs)] at hmem
    cases hmem

theorem versionOk_level0 {n : Nat} (hok : ∀ h ∈ files, HandleOk h)
    (hnumbers : files.Pairwise (fun a b => b.number < a.number))
    (hfresh : ∀ h ∈ files, h.number < n)
    (hnewer : files.Pairwise (fun a b => Newer a.entries b.entries)) :
    VersionOk (files :: List.replicate 6 []) n := by
  constructor
  case levels => rfl
  case handle => exact fun l h hh => hok h (mem_level0 hh).2
  case level0 => exact hnumbers
  case deeper =>
    intro l hl
    have hnil : Version.level (files :: List.replicate 6 []) l = [] := by
      apply List.eq_nil_iff_forall_not_mem.mpr
      intro h hh
      exact absurd (mem_level0 hh).1 (by omega)
    rw [hnil]
    exact .nil
  case numbers =>
    intro l m a ha b hb hnumber
    refine ⟨(mem_level0 ha).1.trans (mem_level0 hb).1.symm, ?_⟩
    rcases pairwise_mem hnumbers (mem_level0 ha).2 (mem_level0 hb).2 with hsame | hlt | hlt
    · exact hsame
    · omega
    · omega
  case fresh => exact fun l h hh => hfresh h (mem_level0 hh).2
  case newer0 =>
    intro a ha b hb hlt
    rcases pairwise_mem (hnumbers.and hnewer) ha hb with hsame | h | h
    · rw [hsame] at hlt
      omega
    · exact h.2
    · omega
  case newer =>
    intro l m hlt a ha b hb
    have := (mem_level0 hb).1
    omega

theorem exists_oneTable : ∃ h : TableHandle,
    h.entries = [Entry.mk [97] 1 .put [1], Entry.mk [98] 2 .delete []] ∧
      VersionOk ([h] :: List.replicate 6 []) 2 ∧
      TablesFit { l0CompactionTrigger := 1 } (· ∈ h.entries ++ []) := by
  have hsmall : (encodeBlock [Entry.mk [97] 1 .put [1], Entry.mk [98] 2 .delete []]).length *
      (10 + 1) + 72 ≤ 2 ^ 32 := by decide
  have hseq : ∀ e ∈ [Entry.mk [97] 1 .put [1], Entry.mk [98] 2 .delete []], e.seqno < 2 ^ 64 := by
    decide
  have hfits : TableFits ({ l0CompactionTrigger := 1 } : Options).table
      [Entry.mk [97] 1 .put [1], Entry.mk [98] 2 .delete []] := tableFits_of_small hseq hsmall
  obtain ⟨t, _, hfinished⟩ := finished_table (cons_ne_nil _ _) (by decide) hfits 0 1
  obtain ⟨hentries, hok, _⟩ := hfinished _ rfl
  refine ⟨_, hentries, versionOk_level0 (n := 2) (fun h hh => mem_singleton.mp hh ▸ hok)
    (pairwise_singleton _ _) (fun h hh => mem_singleton.mp hh ▸ Nat.one_lt_two)
    (pairwise_singleton _ _), ?_⟩
  rw [hentries]
  exact tablesFit_of_small hseq hsmall

theorem compaction_preserves_oneTable :
    ∃ (v : Version) (c : Compaction) (next : Nat → Nat), VersionOk v 2 ∧
      pickCompaction { l0CompactionTrigger := 1 } v (fun _ => 0) = .found c next ∧
      ∃ v' n', doCompaction { l0CompactionTrigger := 1 } v 2 c = some (v', n') ∧
        VersionOk v' n' ∧ ∀ key, v'.read key = v.read key := by
  obtain ⟨h, _, hv, hfits⟩ := exists_oneTable
  obtain ⟨_, hpreserves⟩ := @compaction_preserves { l0CompactionTrigger := 1 } _ 2 hv
    (Nat.le_refl 1) (fun _ => 0)
  have hp := @pickCompaction_picked _ _ _ { l0CompactionTrigger := 1 } hv (fun _ => 0) _ rfl
  refine ⟨_, _, _, hv, rfl, (hpreserves _ _ rfl).1 (hp.tableFits hv (fun e he => ?_) hfits)⟩
  exact ((hp.mem_kept hv).mp he).1.1

theorem openTable_wrapped {opts : TableOptions} {a b : Entry}
    (ha : (encodeBlock [a]).length < opts.blockSize)
    (hb : opts.blockSize ≤ (encodeBlock [a, b]).length)
    (hwraps : (encodeBlock [a, b]).length = 2 ^ 32) (hkey : a.key.length < 2 ^ 31)
    (hbloom : bloomSize (keysOf [a, b]).length opts.bloomBitsPerKey * 8 < 2 ^ 32) :
    ∃ t, openTable (buildTable opts [a, b]).1 = some t ∧ t.index = [⟨a.key, 0, 0⟩] := by
  have hblocks : blocksOf opts [a, b] = [[a, b]] := by
    unfold blocksOf blocksFrom
    rw [if_neg (by rw [nil_append]; omega)]
    unfold blocksFrom
    rw [if_pos (by exact hb)]
    rfl
  have hbuilt := built_blocksOf opts [a, b]
  rw [hblocks] at hbuilt
  -- the size of the block is 2^32, and four bytes cannot tell it from 0
  have hwritten : encodeIndex (indexOf 0 [[a, b]]) = encodeIndex [⟨a.key, 0, 0⟩] := by
    have hsize : putFixed32 (2 ^ 32) = putFixed32 0 := by decide
    show IndexEntry.encode ⟨a.key, 0, (encodeBlock [a, b]).length⟩ ++ [] = _
    unfold IndexEntry.encode
    rw [hwraps, hsize]
    rfl
  have hindex := hbuilt.index.trans hwritten
  have hlength := congrArg List.length hindex
  have hone : (encodeIndex [⟨a.key, 0, 0⟩]).length = 16 + a.key.length := by
    show (IndexEntry.encode _ ++ []).length = _
    rw [append_nil, length_encode]
  have hdata := congrArg List.length hbuilt.file
  rw [flatMap_encodeBlock, flatten_singleton, hwraps] at hdata
  have hfilter := length_buildBloom (keysOf [a, b]) opts.bloomBitsPerKey
  have hkeys := hbuilt.keys
  rw [append_nil, flatten_singleton] at hkeys
  have hentries := hbuilt.entries
  have hfits : ∀ ie ∈ [IndexEntry.mk a.key 0 0], ie.Fits := by
    intro ie hie
    rw [mem_singleton.mp hie]
    exact ⟨hkey.trans (by decide), Nat.two_pow_pos 64, Nat.two_pow_pos 32⟩
  have hparse := parseIndex_encode hfits (Nat.lt_succ_self _)
  rw [← hindex] at hparse
  refine ⟨_, openTable_footer rfl (by omega) (by omega) ?_ ?_ hparse, rfl⟩
  · rw [hkeys]
    omega
  · rw [hentries]
    show 2 < 2 ^ 64
    decide

theorem Table.get_wrapped {t : Table} {k : Key} (h : t.index = [⟨k, 0, 0⟩]) (key : Key) :
    t.get key = none := by
  have hempty : ∀ n, Table.iterBlocks t.file (t.index.drop n) = [] := by
    intro n
    rw [h]
    cases n with
    | zero => rfl
    | succ n => rw [List.drop_succ_cons, drop_nil]; rfl
  unfold Table.get Table.seek
  rw [hempty]
  split <;> rfl

theorem tableFits_singleton {opts : TableOptions} {e : Entry} (hseq : e.seqno < 2 ^ 64)
    (hsize : (encodeBlock [e]).length < 2 ^ 32) (hbits : opts.bloomBitsPerKey < 2 ^ 31) :
    TableFits opts [e] := by
  have hblocks : blocksOf opts [e] = [[e]] := by
    unfold blocksOf blocksFrom
    split <;> rfl
  have hindex : (encodeIndex (indexOf 0 [[e]])).length = 16 + e.key.length := by
    show (IndexEntry.encode _ ++ []).length = _
    rw [append_nil, length_encode]
    rfl
  have hkey := length_le_encodeBlock (mem_singleton_self e)
  constructor
  case seqnos =>
    intro x hx
    rw [mem_singleton.mp hx]
    exact hseq
  case blocks =>
    rw [hblocks]
    intro g hg
    rw [mem_singleton.mp hg]
    exact hsize
  case index =>
    rw [hblocks, hindex]
    omega
  case bloom =>
    show bloomSize 1 opts.bloomBitsPerKey * 8 < 2 ^ 32
    unfold bloomSize
    omega
  case offsets =>
    rw [hblocks, hindex]
    omega

theorem exists_handle (hfits : TableFits opts [e]) (number : Nat) :
    ∃ h : TableHandle, h.entries = [e] ∧ HandleOk h ∧ h.number = number := by
  obtain ⟨t, _, hfinished⟩ := finished_table (cons_ne_nil e [])
    (pairwise_singleton _ _) hfits 0 number
  obtain ⟨hentries, hok, _⟩ := hfinished _ rfl
  exact ⟨_, hentries, hok, rfl⟩

theorem exists_two {a b : Entry} (ha : TableFits opts [a]) (hb : TableFits opts [b])
    (hseq : a.seqno < b.seqno) : ∃ fa fb : TableHandle, fa.entries = [a] ∧ fb.entries = [b] ∧
      VersionOk ([fb, fa] :: List.replicate 6 []) 3 := by
  obtain ⟨fa, hentriesA, hokA, hnumberA⟩ := exists_handle ha 1
  obtain ⟨fb, hentriesB, hokB, hnumberB⟩ := exists_handle hb 2
  refine ⟨fa, fb, hentriesA, hentriesB, ?_⟩
  apply versionOk_level0
  · simp [hokA, hokB]
  · simp [hnumberA, hnumberB]
  · simp [hnumberA, hnumberB]
  · rw [pairwise_pair]
    intro x hx y hy hk
    rw [hentriesB] at hx
    rw [hentriesA] at hy
    rw [mem_singleton.mp hx, mem_singleton.mp hy]
    exact hseq

theorem find_table {key : Key} (h : v.find key = some e) :
    ∃ l, ∃ f ∈ v.level l, f.table.get key = some e := by
  obtain ⟨f, hf, hget⟩ := List.exists_of_findSome?_eq_some h
  rcases mem_append.mp hf with hf | hf
  · exact ⟨0, f, hf, hget⟩
  · obtain ⟨files, hfiles, hlevel⟩ := mem_filterMap.mp hf
    obtain ⟨i, hi⟩ := mem_iff_getElem?.mp hfiles
    rw [getElem?_drop] at hi
    have hmem := mem_of_getElem? (filter_eq_some_iff.mp hlevel).1
    exact ⟨1 + i, f, mem_level.mpr ⟨files, hi, hmem⟩, hget⟩

theorem tables_two {opts : Options} {c : Compaction} {a b : Entry}
    (hinputs : c.inputs.map TableHandle.entries = [[b], [a]]) (hkeys : a.key < b.key)
    (ha : a.op = .put) (hb : b.op = .put)
    (hsmall : (encodeBlock [a]).length < opts.maxOutputFileBytes) :
    c.tables opts v = [[a, b]] := by
  have hmerge : SortedRuns.merge [[b], [a]] = [a, b] := by
    have hlt : SortedRuns.Lt a b := .inl hkeys
    simp [SortedRuns.merge, mergeFuel, pickFrom, hlt]
  have hfirsts : firsts [a, b] = [a, b] := by
    have hne : a.key ≠ b.key := ne_of_lt hkeys
    simp [firsts, firstsFrom, SortedRuns.key, hne]
  have hfilter : [a, b].filter (fun e => !dropsTombstone c.outputLevel v e) = [a, b] := by
    simp [dropsTombstone, ha, hb]
  unfold Compaction.tables buildTables
  rw [hinputs, hmerge, hfirsts, hfilter]
  have hwritten : (TableBuilder.add opts.table {} a).bytesWritten = (encodeBlock [a]).length := by
    rw [bytesWritten_add, encodeBlock, flatMap_singleton]
    exact Nat.zero_add _
  unfold cutTables
  rw [if_neg (by omega)]
  unfold cutTables
  split <;> rfl

theorem doCompaction_one {opts : Options} {c : Compaction} {t : Table} (n : Nat)
    (htables : c.tables opts v = [es]) (hopen : openTable (buildTable opts.table es).1 = some t) :
    ∃ o : TableHandle, o.table = t ∧
      doCompaction opts v n c = some (compactVersion v c [o], n + 1) := by
  refine ⟨⟨{ (buildTable opts.table es).2 with number := n, level := c.outputLevel }, t⟩, rfl, ?_⟩
  unfold doCompaction
  rw [htables, finishTables, hopen]
  rfl

/-- **A key that is lost**: two tables of level 0, whose entries take 2^32 bytes in one block. -/
theorem compaction_loses_key :
    ∃ (v : Version) (value : Bytes) (c : Compaction) (next : Nat → Nat),
      value.length = 2 ^ 32 - 36 ∧
      (v.level 0).map TableHandle.entries =
        [[Entry.mk [98] 2 .put value], [Entry.mk [97] 1 .put []]] ∧ VersionOk v 3 ∧
      pickCompaction { l0CompactionTrigger := 2 } v (fun _ => 0) = .found c next ∧
      v.read [97] = some [] ∧
      ∃ v' n', doCompaction { l0CompactionTrigger := 2 } v 3 c = some (v', n') ∧
        v'.read [97] = none := by
  obtain ⟨value, hvalue⟩ : ∃ value : Bytes, value.length = 2 ^ 32 - 36 :=
    ⟨List.replicate (2 ^ 32 - 36) 0, length_replicate⟩
  have hsizeA : (encodeBlock [Entry.mk [97] 1 .put []]).length = 18 := by decide
  have hsizeB : (encodeBlock [Entry.mk [98] 2 .put value]).length = 2 ^ 32 - 18 := by
    show (appendEntry _ ++ []).length = _
    rw [append_nil, length_appendEntry]
    show 17 + 1 + value.length = 2 ^ 32 - 18
    omega
  have hsize : (encodeBlock [Entry.mk [97] 1 .put [], Entry.mk [98] 2 .put value]).length =
      2 ^ 32 := by
    show (appendEntry _ ++ encodeBlock [Entry.mk [98] 2 .put value]).length = _
    rw [length_append, length_appendEntry]
    show 17 + 1 + 0 + _ = 2 ^ 32
    omega
  -- both tables of level 0 fit
  obtain ⟨fa, fb, hentriesA, hentriesB, hv⟩ := exists_two
    (@tableFits_singleton ⟨4096, 10⟩ (Entry.mk [97] 1 .put []) (by decide) (by omega) (by decide))
    (@tableFits_singleton ⟨4096, 10⟩ (Entry.mk [98] 2 .put value) (by show 2 < 2 ^ 64; decide)
      (by omega) (by decide)) Nat.one_lt_two
  have hpick : pickCompaction { l0CompactionTrigger := 2 } ([fb, fa] :: List.replicate 6 [])
      (fun _ => 0) = .found ⟨1, [fb, fa]⟩ (fun _ => 0) := rfl
  have hp := pickCompaction_picked hv hpick
  refine ⟨_, value, _, _, hvalue, ?_, hv, hpick, ?_, ?_⟩
  · show [fb.entries, fa.entries] = _
    rw [hentriesA, hentriesB]
  · -- the key is there
    have hnewest : Newest (Version.entries ([fb, fa] :: List.replicate 6 []))
        (Entry.mk [97] 1 .put []) := by
      have hall : Version.entries ([fb, fa] :: List.replicate 6 []) =
          [Entry.mk [98] 2 .put value, Entry.mk [97] 1 .put []] := by
        show fb.entries ++ (fa.entries ++ []) = _
        rw [hentriesA, hentriesB]
        rfl
      rw [hall]
      refine ⟨by simp, fun x hx hk => ?_⟩
      rcases mem_cons.mp hx with rfl | hx
      · exact absurd hk (by show ([98] : Key) ≠ [97]; decide)
      · rw [mem_singleton.mp hx]
    unfold Version.read
    rw [hv.find_of_newest hnewest]
    rfl
  · -- and it is not in the one table of the new version
    obtain ⟨t, hopen, hindex⟩ := @openTable_wrapped ⟨4096, 10⟩ (Entry.mk [97] 1 .put [])
      (Entry.mk [98] 2 .put value) (by rw [hsizeA]; decide) (by rw [hsize]; decide) hsize
      (by decide) (by show bloomSize 2 10 * 8 < 2 ^ 32; decide)
    have htables : Compaction.tables { l0CompactionTrigger := 2 }
        ([fb, fa] :: List.replicate 6 []) ⟨1, [fb, fa]⟩ =
        [[Entry.mk [97] 1 .put [], Entry.mk [98] 2 .put value]] := by
      apply tables_two
      · show [fb.entries, fa.entries] = _
        rw [hentriesA, hentriesB]
      · show ([97] : Key) < [98]
        decide
      · rfl
      · rfl
      · rw [hsizeA]
        decide
    obtain ⟨o, rfl, hdo⟩ := doCompaction_one 3 htables hopen
    refine ⟨_, _, hdo, ?_⟩
    unfold Version.read
    cases hfind : (compactVersion ([fb, fa] :: List.replicate 6 []) ⟨1, [fb, fa]⟩ [o]).find [97] with
    | none => rfl
    | some e =>
      obtain ⟨l, f, hf, hget⟩ := find_table hfind
      have hnone : f.table.get [97] = none := by
        rcases (hp.mem_compactVersion hv).mp hf with ⟨hf, hin⟩ | ⟨_, hf⟩
        · exact absurd (mem_level0 hf).2 hin
        · rw [mem_singleton.mp hf]
          exact Table.get_wrapped hindex [97]
      rw [hnone] at hget
      cases hget

end Flotilla.Storage
