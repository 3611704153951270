/-
  Server.Lineage — where the groups of a cluster come from.

  A split creates its child with the upper part of the parent's range, so the
  groups form a tree and the ranges they are born with are nested.  Groups that
  ever owned one key stand on one branch of the tree, and the last of the branch
  owns the key now.
-/
import Flotilla.Lib.Positions
import Flotilla.Server.RangeSafety

namespace Flotilla.Server

open Flotilla.Txn (Key)

/-! ## The tree of groups. -/

/-- A split in the log of group `i` names the child `c`. -/
def Spawns (log : Nat → List Command) (i c : Nat) : Prop :=
  ∃ (a : Nat) (x : Key), (log i)[a]? = some (Command.split c x)

def Descends (log : Nat → List Command) (i j : Nat) : Prop :=
  Relation.ReflTransGen (Spawns log) i j

/-- What was written at index `b` of group `j` has been handed on to group `i` by a later split. -/
def HandedOn (log : Nat → List Command) (j b i : Nat) : Prop :=
  ∃ (a c : Nat) (x : Key), (log j)[a]? = some (Command.split c x) ∧ b < a ∧ Descends log c i

section

variable {birth : Nat → Option RangeDesc} {log log' : Nat → List Command}

variable {i j a c : Nat} {x key : Key} {d : RangeDesc}

theorem Descends.mono (hlog : ∀ i, log i <+: log' i) (h : Descends log i j) :
    Descends log' i j := by
  refine Relation.ReflTransGen.mono ?_ i j h
  rintro i c ⟨a, x, ha⟩
  exact ⟨a, x, getElem?_of_isPrefix (hlog _) ha⟩

theorem HandedOn.mono (hlog : ∀ i, log i <+: log' i) {b : Nat} (h : HandedOn log j b i) :
    HandedOn log' j b i := by
  obtain ⟨a, c, x, ha, hlt, hdesc⟩ := h
  exact ⟨a, c, x, getElem?_of_isPrefix (hlog _) ha, hlt, hdesc.mono hlog⟩

section

variable (h : SplitsOk birth log) {f : RangeDesc} (ha : (log i)[a]? = some (Command.split c x))
  (hc : birth c = some f)

include h ha hc

theorem SplitsOk.effective :
    ∃ d, birth i = some d ∧ (rangeAfter d ((log i).take a)).Contains x ∧ x ≠ d.start ∧
      f = ⟨c, x, (rangeAfter d ((log i).take a)).endKey⟩ := by
  rcases h.origin (by rw [hc]; simp) with rfl | ⟨i', a', x', d, hd, ha', hin, hne⟩
  · exact absurd ha h.notRoot
  · obtain ⟨rfl, rfl⟩ := h.unique ha ha'
    rw [ha] at ha'
    cases ha'
    have hborn := h.born hd ha hin hne
    rw [hc] at hborn
    exact ⟨d, hd, hin, hne, Option.some.inj hborn⟩

theorem SplitsOk.given_away (hkey : f.Contains key) (hd : birth i = some d) {m : Nat} (hm : a < m) :
    ¬ (rangeAfter d ((log i).take m)).Contains key := by
  intro hin
  obtain ⟨d', hd', hx, hne, rfl⟩ := h.effective ha hc
  rw [hd] at hd'
  cases hd'
  have hstart : x ≠ (rangeAfter d ((log i).take a)).start := by
    rw [(rangeAfter_start d _).1]
    exact hne
  obtain ⟨k, rfl⟩ : ∃ k, m = a + 1 + k := ⟨m - (a + 1), by omega⟩
  rw [take_add, rangeAfter_append] at hin
  have hcut := contains_of_rangeAfter hin
  rw [take_succ_of_getElem? ha, rangeAfter_concat, shrink_split hx hstart] at hcut
  exact cut_apart hx hstart hcut hkey

end

theorem SplitsOk.born_of_descends (h : SplitsOk birth log) (hdesc : Descends log i j)
    (hj : birth j ≠ none) : birth i ≠ none := by
  rcases Relation.ReflTransGen.cases_head hdesc with rfl | ⟨c, ⟨a, x, ha⟩, _⟩
  · exact hj
  · apply h.known
    intro hnil
    rw [hnil] at ha
    cases ha

theorem SplitsOk.nested (h : SplitsOk birth log) (hdesc : Descends log i j) {e : RangeDesc}
    (hd : birth i = some d) (he : birth j = some e) (hkey : e.Contains key) : d.Contains key := by
  induction hdesc generalizing e with
  | refl =>
    rw [hd] at he
    cases he
    exact hkey
  | @tail m c _ hspawn ih =>
    obtain ⟨a, x, ha⟩ := hspawn
    obtain ⟨f, hf, hx, hne, rfl⟩ := h.effective ha he
    apply ih hf
    have hstart : x ≠ (rangeAfter f ((log m).take a)).start := by
      rw [(rangeAfter_start f _).1]
      exact hne
    exact contains_of_rangeAfter ((contains_cut hx hstart c).mpr (.inr hkey))

theorem SplitsOk.handed (h : SplitsOk birth log) {b : Nat} (hd : birth i = some d)
    (hin : (rangeAfter d ((log i).take b)).Contains key)
    (hlost : ¬ (rangeAfter d (log i)).Contains key) :
    ∃ (a c : Nat) (x : Key) (f : RangeDesc), b ≤ a ∧ (log i)[a]? = some (Command.split c x) ∧
      birth c = some f ∧ f.Contains key := by
  have hrest : ¬ (rangeAfter (rangeAfter d ((log i).take b)) ((log i).drop b)).Contains key := by
    rw [← rangeAfter_append, take_append_drop]
    exact hlost
  obtain ⟨k, c, x, hk, hle, hbefore, hafter⟩ := exists_split_of_lost hin hrest
  rw [getElem?_drop] at hk
  rw [← rangeAfter_append, ← take_add] at hbefore
  rw [← rangeAfter_append, ← take_add, ← Nat.add_assoc, take_succ_of_getElem? hk,
    rangeAfter_concat] at hafter
  -- the range changes, so the split takes effect
  have heffect : (rangeAfter d ((log i).take (b + k))).Contains x ∧
      x ≠ (rangeAfter d ((log i).take (b + k))).start := by
    by_contra hno
    apply hafter
    unfold RangeDesc.shrink
    dsimp only
    rw [if_neg hno]
    exact hbefore
  have hne : x ≠ d.start := by
    rw [← (rangeAfter_start d ((log i).take (b + k))).1]
    exact heffect.2
  exact ⟨b + k, c, x, _, Nat.le_add_right b k, hk, h.born hd hk heffect.1 hne, hle, hbefore.2⟩

theorem NodeOk.ancestor {n : Node} (hn : NodeOk birth log n) (h : SplitsOk birth log)
    (ha : (log j)[a]? = some (Command.split c x)) (hdesc : Descends log c i)
    (hi : n.groups.lookup i ≠ none) :
    ∃ g, n.groups.lookup j = some g ∧ a < g.appliedIndex := by
  induction hdesc using Relation.ReflTransGen.head_induction_on generalizing j a x with
  | refl =>
    rcases hn.hosted hi with rfl | ⟨j', g, a', x', hg, ha', hlt⟩
    · exact absurd ha h.notRoot
    · obtain ⟨rfl, rfl⟩ := h.unique ha ha'
      exact ⟨g, hg, hlt⟩
  | head hspawn _ ih =>
    -- the next group of the chain is there, so this one is
    obtain ⟨a', x', ha'⟩ := hspawn
    obtain ⟨g', hg', _⟩ := ih ha'
    rcases hn.hosted (by rw [hg']; simp) with rfl | ⟨j', g, a'', x'', hg, ha'', hlt⟩
    · exact absurd ha h.notRoot
    · obtain ⟨rfl, rfl⟩ := h.unique ha ha''
      exact ⟨g, hg, hlt⟩

/-! ## One branch for each key. -/

def Lineage (birth : Nat → Option RangeDesc) (log : Nat → List Command) : Prop :=
  ∀ (i j : Nat) (d e : RangeDesc) (key : Key), birth i = some d → birth j = some e →
    d.Contains key → e.Contains key → Descends log i j ∨ Descends log j i

theorem Lineage.owner (hline : Lineage birth log) (h : SplitsOk birth log) {e : RangeDesc}
    (hd : birth i = some d) (hin : (rangeAfter d (log i)).Contains key) (he : birth j = some e)
    (hkey : e.Contains key) :
    Descends log j i := by
  rcases hline i j d e key hd he (contains_of_rangeAfter hin) hkey with hdesc | hdesc
  · rcases Relation.ReflTransGen.cases_head hdesc with rfl | ⟨c, ⟨a, x, ha⟩, hrest⟩
    · exact Relation.ReflTransGen.refl
    · -- the owner would have given the key away
      obtain ⟨f, hf⟩ := ne_none_iff_exists'.mp (h.born_of_descends hrest (by rw [he]; simp))
      obtain ⟨hlt, _⟩ := getElem?_eq_some_iff.mp ha
      have hgone := h.given_away ha hf (h.nested hrest hf he hkey) hd hlt
      rw [take_length] at hgone
      exact absurd hin hgone
  · exact hdesc

theorem Lineage.mono (hline : Lineage birth log) (hlog : ∀ i, log i <+: log' i) :
    Lineage birth log' := by
  intro i j d e key hd he hkey hkey'
  exact (hline i j d e key hd he hkey hkey').imp (.mono hlog) (.mono hlog)

end

theorem Lineage.split {birth : Nat → Option RangeDesc} {log : Nat → List Command} {p c : Nat}
    {d : RangeDesc} {x : Key} (hline : Lineage birth log) (h : SplitsOk birth log)
    (hd : birth p = some d) :
    Lineage (spawnBirth birth (rangeAfter d (log p)) c x) (grow log p (.split c x)) := by
  have hgrow := isPrefix_grow log p (.split c x)
  by_cases heffect : (rangeAfter d (log p)).Contains x ∧ x ≠ (rangeAfter d (log p)).start
  · have hbirth : spawnBirth birth (rangeAfter d (log p)) c x =
        update birth c (some ⟨c, x, (rangeAfter d (log p)).endKey⟩) := if_pos heffect
    rw [hbirth]
    have hspawn : Spawns (grow log p (.split c x)) p c := by
      refine ⟨(log p).length, x, ?_⟩
      unfold grow
      rw [update_self, List.getElem?_append_right le_rfl, Nat.sub_self]
      rfl
    -- whoever shares a key with the child is above its parent
    have habove : ∀ {j e key}, birth j = some e → e.Contains key →
        (⟨c, x, (rangeAfter d (log p)).endKey⟩ : RangeDesc).Contains key →
        Descends (grow log p (.split c x)) j c := by
      intro j e key he hkey hchild
      have hin := (contains_cut heffect.1 heffect.2 c).mpr (.inr hchild)
      exact ((hline.owner h hd hin he hkey).mono hgrow).tail hspawn
    intro i j e e' key hi hj hkey hkey'
    by_cases hic : i = c
    · by_cases hjc : j = c
      · rw [hic, hjc]
        exact .inl Relation.ReflTransGen.refl
      · rw [update_of_ne hjc] at hj
        rw [hic, update_self] at hi
        cases hi
        rw [hic]
        exact .inr (habove hj hkey' hkey)
    · rw [update_of_ne hic] at hi
      by_cases hjc : j = c
      · rw [hjc, update_self] at hj
        cases hj
        rw [hjc]
        exact .inl (habove hi hkey hkey')
      · rw [update_of_ne hjc] at hj
        exact (hline.mono hgrow) i j e e' key hi hj hkey hkey'
  · have hbirth : spawnBirth birth (rangeAfter d (log p)) c x = birth := if_neg heffect
    rw [hbirth]
    exact hline.mono hgrow

/-- Every group comes from a split in its parent's log, before and after an event. -/
theorem Lineage.step {s s' : Cluster} (hline : Lineage s.birth s.log) (h : RangesOk s) {e : Event}
    (hmove : Moves s e s') : Lineage s'.birth s'.log := by
  cases hmove with
  | route _ _ | allocate _ | applyBegin _ _ _ | applyEnd _ _ => exact hline
  | append _ haccept =>
    rw [s.log_push, Cluster.birth_push_of_not_split (Command.not_split_of_accepted haccept)]
    exact hline.mono (isPrefix_grow _ _ _)
  | lead _ =>
    rw [s.log_push, Cluster.birth_push_of_not_split (fun c x heq => by cases heq)]
    exact hline.mono (isPrefix_grow _ _ _)
  | @appendSplit i p hp =>
    obtain ⟨d, hd⟩ := ne_none_iff_exists'.mp (h.pending p (mem_of_getElem? hp))
    rw [s.log_push, Cluster.birth_push_split hd]
    exact hline.split h.logs hd

theorem Lineage.boot : Lineage ({} : Cluster).birth ({} : Cluster).log := by
  intro i j d e key hi hj _ _
  rw [(rootBirth_eq hi).1, (rootBirth_eq hj).1]
  exact .inl Relation.ReflTransGen.refl

end Flotilla.Server
