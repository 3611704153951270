/-
  Storage.Versions — what a version must be like, and what is read from it.

  In a version the tables of level 0 may overlap and stand newest first; in every
  other level the tables have key ranges of their own, in ascending order.  What a
  table knows of a key is newer than what the tables of deeper levels know.
-/
import Flotilla.Lib.Layers
import Flotilla.Storage.Db
import Flotilla.Storage.TableRoundTrip

namespace Flotilla.Storage

open SortedRuns (Newest Newer)

/-! ## Versions. -/

/-- A table that answers for its entries, which stand in their order between its bounds. -/
structure HandleOk (h : TableHandle) : Prop where
  sorted : h.entries.Pairwise SortedRuns.Lt
  reads : ∀ key, h.table.get key = h.entries.find? (fun e => e.key = key)
  range : h.smallest ≤ h.largest
  bounds : ∀ e ∈ h.entries, h.smallest ≤ e.key ∧ e.key ≤ h.largest

/-- The key ranges of two tables do not meet. -/
def Apart (a b : TableHandle) : Prop := a.largest < b.smallest ∨ b.largest < a.smallest

variable {a b : TableHandle} {v : Version}

theorem Apart.symm (h : Apart a b) : Apart b a := Or.symm h

theorem Apart.key_ne (h : Apart a b) (ha : HandleOk a) (hb : HandleOk b) {x y : Entry}
    (hx : x ∈ a.entries) (hy : y ∈ b.entries) : x.key ≠ y.key := by
  intro hk
  have hxa := ha.bounds x hx
  have hyb := hb.bounds y hy
  rw [hk] at hxa
  rcases h with h | h
  · exact absurd (lt_of_le_of_lt hxa.2 (lt_of_lt_of_le h hyb.1)) (lt_irrefl _)
  · exact absurd (lt_of_le_of_lt hyb.2 (lt_of_lt_of_le h hxa.1)) (lt_irrefl _)

/-- The shape of a version, with `nextFile` above every number. -/
structure VersionOk (v : Version) (nextFile : Nat) : Prop where
  levels : v.length = kNumLevels
  handle : ∀ l, ∀ h ∈ v.level l, HandleOk h
  level0 : (v.level 0).Pairwise (fun a b => b.number < a.number)
  deeper : ∀ l, 0 < l → (v.level l).Pairwise (fun a b => a.largest < b.smallest)
  numbers : ∀ l m, ∀ a ∈ v.level l, ∀ b ∈ v.level m, a.number = b.number → l = m ∧ a = b
  fresh : ∀ l, ∀ h ∈ v.level l, h.number < nextFile
  newer0 : ∀ a ∈ v.level 0, ∀ b ∈ v.level 0, b.number < a.number → Newer a.entries b.entries
  newer : ∀ l m, l < m → ∀ a ∈ v.level l, ∀ b ∈ v.level m, Newer a.entries b.entries

def Version.entries (v : Version) : List Entry := v.flatten.flatMap TableHandle.entries

theorem mem_level {l : Nat} {h : TableHandle} :
    h ∈ v.level l ↔ ∃ files, v[l]? = some files ∧ h ∈ files := by
  unfold Version.level
  cases hl : v[l]? with
  | none | some files => simp

theorem mem_version {h : TableHandle} : h ∈ v.flatten ↔ ∃ l, h ∈ v.level l := by
  rw [mem_flatten]
  constructor
  · rintro ⟨files, hfiles, hh⟩
    obtain ⟨l, hl⟩ := mem_iff_getElem?.mp hfiles
    exact ⟨l, mem_level.mpr ⟨files, hl, hh⟩⟩
  · rintro ⟨l, hh⟩
    obtain ⟨files, hl, hh⟩ := mem_level.mp hh
    exact ⟨files, mem_of_getElem? hl, hh⟩

theorem mem_entries {e : Entry} :
    e ∈ v.entries ↔ ∃ l, ∃ h ∈ v.level l, e ∈ h.entries := by
  unfold Version.entries
  rw [mem_flatMap]
  constructor
  · rintro ⟨h, hh, he⟩
    obtain ⟨l, hl⟩ := mem_version.mp hh
    exact ⟨l, h, hl, he⟩
  · rintro ⟨l, h, hl, he⟩
    exact ⟨h, mem_version.mpr ⟨l, hl⟩, he⟩

theorem eq_or_apart {files : List TableHandle}
    (hfiles : files.Pairwise (fun a b => a.largest < b.smallest)) (ha : a ∈ files) (hb : b ∈ files) :
    a = b ∨ Apart a b :=
  SortedRuns.pairwise_mem hfiles ha hb

theorem VersionOk.entry_eq {n : Nat} (hv : VersionOk v n) {a b : Entry} (ha : a ∈ v.entries)
    (hb : b ∈ v.entries) (hk : a.key = b.key) (hseq : a.seqno = b.seqno) :
    a = b := by
  obtain ⟨l, f, hf, ha⟩ := mem_entries.mp ha
  obtain ⟨m, g, hg, hb⟩ := mem_entries.mp hb
  rcases Nat.lt_trichotomy l m with hlt | rfl | hgt
  · have hnewer : b.seqno < a.seqno := hv.newer l m hlt f hf g hg a ha b hb hk
    omega
  · by_cases hfg : f = g
    · subst hfg
      exact SortedRuns.eq_of_sorted (hv.handle l f hf).sorted ha hb hk hseq
    · by_cases hl : l = 0
      · subst hl
        rcases Nat.lt_trichotomy f.number g.number with hlt | heq | hgt
        · have hnewer : a.seqno < b.seqno := hv.newer0 g hg f hf hlt b hb a ha hk.symm
          omega
        · exact absurd (hv.numbers 0 0 f hf g hg heq).2 hfg
        · have hnewer : b.seqno < a.seqno := hv.newer0 f hf g hg hgt a ha b hb hk
          omega
      · have hapart := (eq_or_apart (hv.deeper l (by omega)) hf hg).resolve_left hfg
        exact absurd hk (hapart.key_ne (hv.handle l f hf) (hv.handle l g hg) ha hb)
  · have hnewer : a.seqno < b.seqno := hv.newer m l hgt g hg f hf b hb a ha hk.symm
    omega

/-! ## One level. -/

section

variable {files : List TableHandle}

section

variable (hok : ∀ h ∈ files, HandleOk h)
  (hfiles : files.Pairwise (fun a b => a.largest < b.smallest)) (key : Key)

include hok hfiles key

theorem levelFile_spec :
    ∃ lo, levelFile files key = (files[lo]?).filter (fun h => h.smallest ≤ key) ∧
      (∀ h ∈ files.take lo, h.largest < key) ∧ ∀ h ∈ files[lo]?, key ≤ h.largest := by
  have hmono : ∀ i j : Nat, i ≤ j → j < files.length →
      (files[j]?).any (fun h : TableHandle => decide (h.largest < key)) = true →
      (files[i]?).any (fun h : TableHandle => decide (h.largest < key)) = true := by
    intro i j hij hj hpj
    rcases Nat.lt_or_eq_of_le hij with hlt | rfl
    · have hi : i < files.length := hlt.trans hj
      rw [getElem?_eq_getElem hj] at hpj
      rw [getElem?_eq_getElem hi]
      have hpj : files[j].largest < key := by simpa using hpj
      have hpair := List.pairwise_iff_getElem.mp hfiles i j hi hj hlt
      have hrange := (hok files[j] (getElem_mem hj)).range
      simpa using lt_trans hpair (lt_of_le_of_lt hrange hpj)
    · exact hpj
  have hmid : ∀ lo hi : Nat, lo < hi → lo ≤ (lo + hi) / 2 ∧ (lo + hi) / 2 < hi := by omega
  have hfuel : files.length - 0 < files.length + 1 := by omega
  obtain ⟨_, hbelow, habove⟩ := BinarySearch.search_spec hmid hmono hfuel (Nat.zero_le _) le_rfl
    (fun i hi => absurd hi (Nat.not_lt_zero i)) (fun i hi hin => absurd hin (by omega))
  refine ⟨_, rfl, fun h hh => ?_, fun h hh => ?_⟩
  · obtain ⟨i, hi⟩ := mem_iff_getElem?.mp hh
    obtain ⟨hlt, _⟩ := getElem?_eq_some_iff.mp hi
    rw [length_take] at hlt
    have hp := hbelow i (by omega)
    rw [getElem?_take_of_lt (by omega)] at hi
    rw [hi] at hp
    simpa using hp
  · obtain ⟨hlt, _⟩ := getElem?_eq_some_iff.mp hh
    have hp := habove _ le_rfl hlt
    rw [mem_def.mp hh] at hp
    simpa using hp

theorem levelFile_get :
    ((levelFile files key).bind fun h => h.table.get key) =
      (files.flatMap TableHandle.entries).find? (fun e => e.key = key) := by
  obtain ⟨lo, heq, hbelow, habove⟩ := levelFile_spec hok hfiles key
  rw [heq, ← take_append_drop lo files, flatMap_append, List.find?_append]
  have hfirst : ((files.take lo).flatMap TableHandle.entries).find? (fun e => e.key = key) =
      none := by
    apply List.find?_eq_none.mpr
    intro e he
    obtain ⟨h, hh, he⟩ := mem_flatMap.mp he
    have hle := ((hok h (mem_of_mem_take hh)).bounds e he).2
    simpa using ne_of_lt (lt_of_le_of_lt hle (hbelow h hh))
  rw [hfirst, none_or, take_append_drop]
  cases hlo : files[lo]? with
  | none =>
    rw [List.drop_eq_nil_of_le (List.getElem?_eq_none_iff.mp hlo)]
    rfl
  | some h =>
    obtain ⟨hlt, rfl⟩ := getElem?_eq_some_iff.mp hlo
    have hh := hok files[lo] (getElem_mem hlt)
    have hkey : key ≤ files[lo].largest := habove _ hlo
    -- what stands behind is above the key
    have hrest : ((files.drop (lo + 1)).flatMap TableHandle.entries).find?
        (fun e => e.key = key) = none := by
      apply List.find?_eq_none.mpr
      intro e he
      obtain ⟨g, hg, he⟩ := mem_flatMap.mp he
      have hsplit := hfiles
      rw [← take_append_drop lo files, List.drop_eq_getElem_cons hlt] at hsplit
      have hlt' := (pairwise_cons.mp (pairwise_append.mp hsplit).2.1).1 g hg
      have hge := ((hok g (mem_of_mem_drop hg)).bounds e he).1
      simpa using ne_of_gt (lt_of_le_of_lt hkey (lt_of_lt_of_le hlt' hge))
    rw [List.drop_eq_getElem_cons hlt, flatMap_cons, List.find?_append, hrest, or_none]
    by_cases hsmall : files[lo].smallest ≤ key
    · rw [filter_some, if_pos (decide_eq_true hsmall)]
      exact hh.reads key
    · rw [filter_some, if_neg (by simpa using hsmall)]
      symm
      apply List.find?_eq_none.mpr
      intro e he
      have hge := (hh.bounds e he).1
      simpa using ne_of_gt (lt_of_lt_of_le (lt_of_not_ge hsmall) hge)

end

end

/-! ## All levels. -/

/-- The tables of level 0 one by one, then a layer for each level. -/
def Version.layers (v : Version) : List (List Entry) :=
  (v.level 0).map TableHandle.entries ++ (v.drop 1).map fun files => files.flatMap TableHandle.entries

theorem level_eq_of_getElem? {l : Nat} {files : List TableHandle} (h : v[l]? = some files) :
    v.level l = files := by
  unfold Version.level
  rw [h]
  rfl

theorem mem_layers {es : List Entry} :
    es ∈ v.layers ↔ (∃ h ∈ v.level 0, es = h.entries) ∨
      ∃ l, 0 < l ∧ l < v.length ∧ es = (v.level l).flatMap TableHandle.entries := by
  unfold Version.layers
  rw [mem_append, mem_map, mem_map]
  constructor
  · rintro (⟨h, hh, rfl⟩ | ⟨files, hfiles, rfl⟩)
    · exact .inl ⟨h, hh, rfl⟩
    · obtain ⟨i, hi⟩ := mem_iff_getElem?.mp hfiles
      rw [getElem?_drop] at hi
      obtain ⟨hlt, _⟩ := getElem?_eq_some_iff.mp hi
      exact .inr ⟨1 + i, by omega, hlt, by rw [level_eq_of_getElem? hi]⟩
  · rintro (⟨h, hh, rfl⟩ | ⟨l, hpos, hlt, rfl⟩)
    · exact .inl ⟨h, hh, rfl⟩
    · have hl : v[l]? = some v[l] := getElem?_eq_getElem hlt
      refine .inr ⟨v[l], ?_, by rw [level_eq_of_getElem? hl]⟩
      apply mem_iff_getElem?.mpr
      refine ⟨l - 1, ?_⟩
      rw [getElem?_drop, ← hl]
      congr 1
      omega

section

variable {v : Version} {n : Nat}

variable {e : Entry}

theorem mem_layers_flatten : e ∈ v.layers.flatten ↔ e ∈ v.entries := by
  rw [mem_flatten, mem_entries]
  constructor
  · rintro ⟨es, hes, he⟩
    rcases mem_layers.mp hes with ⟨h, hh, rfl⟩ | ⟨l, _, _, rfl⟩
    · exact ⟨0, h, hh, he⟩
    · obtain ⟨h, hh, he⟩ := mem_flatMap.mp he
      exact ⟨l, h, hh, he⟩
  · rintro ⟨l, h, hh, he⟩
    by_cases hl : l = 0
    · subst hl
      exact ⟨h.entries, mem_layers.mpr (.inl ⟨h, hh, rfl⟩), he⟩
    · obtain ⟨files, hfiles, _⟩ := mem_level.mp hh
      obtain ⟨hlt, _⟩ := getElem?_eq_some_iff.mp hfiles
      exact ⟨_, mem_layers.mpr (.inr ⟨l, by omega, hlt, rfl⟩), mem_flatMap.mpr ⟨h, hh, he⟩⟩

theorem VersionOk.layers_newer (hv : VersionOk v n) : v.layers.Pairwise Newer := by
  unfold Version.layers
  refine pairwise_append.mpr ⟨?_, ?_, ?_⟩
  · rw [pairwise_map]
    exact hv.level0.imp_of_mem fun ha hb hlt => hv.newer0 _ ha _ hb hlt
  · rw [pairwise_map, List.pairwise_iff_getElem]
    intro i j hi hj hij x hx y hy
    obtain ⟨a, ha, hx⟩ := mem_flatMap.mp hx
    obtain ⟨b, hb, hy⟩ := mem_flatMap.mp hy
    rw [List.getElem_drop] at ha hb
    apply hv.newer (1 + i) (1 + j) (by omega) a _ b _ x hx y hy
    · exact mem_level.mpr ⟨_, getElem?_eq_getElem (by rw [length_drop] at hi; omega), ha⟩
    · exact mem_level.mpr ⟨_, getElem?_eq_getElem (by rw [length_drop] at hj; omega), hb⟩
  · intro x hx y hy a ha b hb
    obtain ⟨f, hf, rfl⟩ := mem_map.mp hx
    obtain ⟨files, hfiles, rfl⟩ := mem_map.mp hy
    obtain ⟨g, hg, hb⟩ := mem_flatMap.mp hb
    obtain ⟨i, hi⟩ := mem_iff_getElem?.mp hfiles
    rw [getElem?_drop] at hi
    exact hv.newer 0 (1 + i) (by omega) f hf g (mem_level.mpr ⟨files, hi, hg⟩) a ha b hb

theorem flatMap_sorted {files : List TableHandle} (hok : ∀ h ∈ files, HandleOk h)
    (hfiles : files.Pairwise (fun a b => a.largest < b.smallest)) :
    SortedRuns.Run (files.flatMap TableHandle.entries) := by
  apply List.pairwise_flatMap.mpr
  constructor
  · exact fun h hh => (hok h hh).sorted.imp SortedRuns.Lt.le
  · apply hfiles.imp_of_mem
    intro a b ha hb hlt x hx y hy
    have hxa := ((hok a ha).bounds x hx).2
    have hyb := ((hok b hb).bounds y hy).1
    exact .inl (lt_of_le_of_lt hxa (lt_of_lt_of_le hlt hyb))

theorem VersionOk.layers_run (hv : VersionOk v n) : ∀ es ∈ v.layers, SortedRuns.Run es := by
  intro es hes
  rcases mem_layers.mp hes with ⟨h, hh, rfl⟩ | ⟨l, hpos, _, rfl⟩
  · exact (hv.handle 0 h hh).sorted.imp SortedRuns.Lt.le
  · exact flatMap_sorted (hv.handle l) (hv.deeper l hpos)

theorem find?_key (es : List Entry) (k : Key) :
    es.find? (fun e => e.key = k) =
      es.find? (fun e => @decide (SortedRuns.key e = k) (LinearOrder.toDecidableEq _ _)) := by
  congr
  funext e
  exact decide_eq_decide.mpr Iff.rfl

theorem findSome?_congr {α β : Type*} {f g : α → Option β} {xs : List α}
    (h : ∀ x ∈ xs, f x = g x) : xs.findSome? f = xs.findSome? g := by
  induction xs with
  | nil => rfl
  | cons x xs ih =>
    rw [List.findSome?_cons, List.findSome?_cons, h x mem_cons_self,
      ih fun y hy => h y (mem_cons_of_mem x hy)]

theorem VersionOk.find_eq_lookup (hv : VersionOk v n) (key : Key) :
    v.find key = SortedRuns.lookup v.layers key := by
  have hlevel0 : (v.level 0).findSome? (fun h => h.table.get key) =
      ((v.level 0).map TableHandle.entries).findSome? fun es => es.find? (fun e => e.key = key) := by
    rw [List.findSome?_map]
    apply findSome?_congr
    exact fun h hh => (hv.handle 0 h hh).reads key
  have hdeeper : ((v.drop 1).filterMap fun files => levelFile files key).findSome?
        (fun h => h.table.get key) =
      ((v.drop 1).map fun files => files.flatMap TableHandle.entries).findSome?
        fun es => es.find? (fun e => e.key = key) := by
    rw [List.findSome?_map, ← List.head?_filterMap, List.filterMap_filterMap, List.head?_filterMap]
    apply findSome?_congr
    intro files hfiles
    obtain ⟨i, hi⟩ := mem_iff_getElem?.mp hfiles
    rw [getElem?_drop] at hi
    obtain rfl := level_eq_of_getElem? hi
    exact levelFile_get (hv.handle _) (hv.deeper _ (by omega)) key
  unfold Version.find Version.asked SortedRuns.lookup Version.layers
  rw [List.findSome?_append, hlevel0, hdeeper, ← List.findSome?_append]
  apply findSome?_congr
  exact fun es _ => find?_key es key

theorem VersionOk.find_some (hv : VersionOk v n) {key : Key} (h : v.find key = some e) :
    Newest v.entries e ∧ e.key = key := by
  rw [hv.find_eq_lookup] at h
  obtain ⟨⟨hmem, hnew⟩, hk⟩ := SortedRuns.lookup_newest hv.layers_run
    (hv.layers_newer.imp Newer.shadows) h
  exact ⟨⟨mem_layers_flatten.mp hmem, fun x hx => hnew x (mem_layers_flatten.mpr hx)⟩, hk⟩

theorem VersionOk.find_none (hv : VersionOk v n) {key : Key} (h : v.find key = none)
    (he : e ∈ v.entries) : e.key ≠ key := by
  rw [hv.find_eq_lookup] at h
  exact SortedRuns.lookup_eq_none h e (mem_layers_flatten.mpr he)

theorem VersionOk.newest_eq (hv : VersionOk v n) {es : List Entry} (hes : ∀ e ∈ es, e ∈ v.entries)
    {a b : Entry} (ha : Newest es a) (hb : Newest es b) (hk : a.key = b.key) : a = b :=
  hv.entry_eq (hes a ha.1) (hes b hb.1) hk (Nat.le_antisymm (hb.2 a ha.1 hk) (ha.2 b hb.1 hk.symm))

theorem VersionOk.find_of_newest (hv : VersionOk v n) (he : Newest v.entries e) :
    v.find e.key = some e := by
  cases hfind : v.find e.key with
  | none => exact absurd rfl (hv.find_none hfind he.1)
  | some x =>
    obtain ⟨hx, hk⟩ := hv.find_some hfind
    rw [hv.newest_eq (fun _ h => h) hx he hk]

end

end Flotilla.Storage
