/-
  Storage.Skiplist — the linked levels of `storage/memtable.cc`.

  A node of height `h` is linked on the levels below `h`.  A search starts on the
  highest level and goes down where the next node is not below the target; the
  nodes where it goes down are those behind which a new node is linked.

  A node is a number, 0 is `head_`; `next level node` is the
  pointer `node->next[level]`.
-/
import Flotilla.Storage.Memtable

namespace Flotilla.Storage

open SortedRuns (Lt Newest)

/-! ## Linked lists. -/

/-- The nodes that are reached from `x`, one after the other, up to a null pointer. -/
def Linked (next : Nat → Option Nat) : Nat → List Nat → Prop
  | x, [] => next x = none
  | x, n :: l => next x = some n ∧ Linked next n l

theorem getLastD_mem (x : Nat) (l : List Nat) : l.getLastD x ∈ x :: l := by
  induction l generalizing x with
  | nil => exact mem_cons_self
  | cons n l ih =>
    rw [List.getLastD_cons]
    exact .tail x (ih n)

theorem getLastD_append_cons (l : List Nat) (n : Nat) (back : List Nat) (x : Nat) :
    (l ++ n :: back).getLastD x = back.getLastD n := by
  induction l generalizing x with
  | nil => exact List.getLastD_cons
  | cons a l ih =>
    rw [cons_append, List.getLastD_cons]
    exact ih a

namespace Linked

variable {next next' : Nat → Option Nat} {x n : Nat} {l back : List Nat}

theorem head? (h : Linked next x l) : next x = l.head? := by
  cases l with
  | nil => exact h
  | cons n l => exact h.1

theorem congr (h : Linked next x l) (hsame : ∀ y ∈ x :: l, next' y = next y) : Linked next' x l := by
  induction l generalizing x with
  | nil => exact (hsame x mem_cons_self).trans h
  | cons n l ih =>
    exact ⟨(hsame x mem_cons_self).trans h.1, ih h.2 fun y hy => hsame y (.tail x hy)⟩

theorem drop (h : Linked next x (l ++ back)) : Linked next (l.getLastD x) back := by
  induction l generalizing x with
  | nil => exact h
  | cons n l ih =>
    rw [List.getLastD_cons]
    exact ih h.2

theorem insert (h : Linked next x (l ++ back)) (hdistinct : (x :: (l ++ back)).Nodup)
    (hnew : n ∉ x :: (l ++ back)) :
    Linked (fun y => if y = n then next (l.getLastD x) else if y = l.getLastD x then some n
      else next y) x (l ++ n :: back) := by
  induction l generalizing x with
  | nil =>
    have hxn : x ≠ n := fun heq => hnew (heq ▸ mem_cons_self)
    have hkeep : ∀ y ∈ back, (if y = n then next x else if y = x then some n else next y) =
        next y := by
      intro y hy
      have hyn : y ≠ n := fun heq => hnew (heq ▸ .tail x hy)
      have hyx : y ≠ x := fun heq => (List.nodup_cons.mp hdistinct).1 (heq ▸ hy)
      rw [if_neg hyn, if_neg hyx]
    refine ⟨by simp [hxn], ?_⟩
    cases back with
    | nil =>
      show (if n = n then next x else _) = none
      rw [if_pos rfl]
      exact h
    | cons b back => exact ⟨by simpa using h.1, h.2.congr hkeep⟩
  | cons a l ih =>
    rw [List.getLastD_cons]
    have hrest := ih h.2 (List.nodup_cons.mp hdistinct).2 fun hmem => hnew (.tail x hmem)
    have hxn : x ≠ n := fun heq => hnew (heq ▸ mem_cons_self)
    have hlast : x ≠ l.getLastD a := by
      intro heq
      have hmem : l.getLastD a ∈ a :: l ++ back := mem_append_left _ (getLastD_mem a l)
      exact (List.nodup_cons.mp hdistinct).1 (heq ▸ hmem)
    exact ⟨(if_neg hxn).trans ((if_neg hlast).trans h.1), hrest⟩

end Linked

/-- Along the list, what holds of a node holds of those before it. -/
def Closed (p : Nat → Bool) (l : List Nat) : Prop := l.Pairwise fun a b => p b = true → p a = true

theorem Closed.split {p : Nat → Bool} {l : List Nat} (h : Closed p l) :
    l.filter p ++ l.filter (!p ·) = l := by
  induction l with
  | nil => rfl
  | cons a l ih =>
    obtain ⟨hhead, htail⟩ := pairwise_cons.mp h
    cases ha : p a with
    | true => simp [ha, ih htail]
    | false =>
      have hnone : l.filter p = [] := List.filter_eq_nil_iff.mpr fun b hb hpb => by
        rw [hhead b hb hpb] at ha
        cases ha
      have hrest := ih htail
      rw [hnone, nil_append] at hrest
      rw [List.filter_cons_of_neg (by simp [ha]), filter_cons_of_pos (by simp [ha]), hnone, hrest]
      rfl

/-! ## The table. -/

def kMaxHeight : Nat := 12

structure Skiplist where
  entry : Nat → Entry := fun _ => ⟨[], 0, .put, []⟩
  next : Nat → Nat → Option Nat := fun _ _ => none
  maxHeight : Nat := 1
  /-- The nodes are 1 to `count`. -/
  count : Nat := 0

namespace Skiplist

variable {s : Skiplist} {key : Key} {seqno level : Nat}

/-- The node comes before `(key, seqno)`. -/
def below (s : Skiplist) (key : Key) (seqno n : Nat) : Bool :=
  internalCompare (s.entry n).key (s.entry n).seqno key seqno < 0

/-- The loop of `FindGreaterOrEqual` while it stays on a level; no level has more than `count`
nodes. -/
def advance (s : Skiplist) (key : Key) (seqno level : Nat) : Nat → Nat → Nat
  | 0, x => x
  | fuel + 1, x =>
      match s.next level x with
      | some n => if s.below key seqno n then s.advance key seqno level fuel n else x
      | none => x

/-- The loop from a level downward: the node that it returns, and `prev`. -/
def descend (s : Skiplist) (key : Key) (seqno : Nat) :
    Nat → Nat → (Nat → Nat) → Option Nat × (Nat → Nat)
  | 0, x, prev =>
      let y := s.advance key seqno 0 s.count x
      (s.next 0 y, Function.update prev 0 y)
  | level + 1, x, prev =>
      let y := s.advance key seqno (level + 1) s.count x
      s.descend key seqno level y (Function.update prev (level + 1) y)

def findGreaterOrEqual (s : Skiplist) (key : Key) (seqno : Nat) (prev : Nat → Nat) :
    Option Nat × (Nat → Nat) :=
  s.descend key seqno (s.maxHeight - 1) 0 prev

/-- `Add`, with the height that `RandomHeight` returned. -/
def add (s : Skiplist) (e : Entry) (height : Nat) : Skiplist :=
  let prev := (s.findGreaterOrEqual e.key e.seqno fun _ => 0).2
  let n := s.count + 1
  { entry := Function.update s.entry n e
    next := fun level y =>
      if level < height then
        if y = n then s.next level (prev level) else if y = prev level then some n
        else s.next level y
      else s.next level y
    maxHeight := max s.maxHeight height
    count := n }

def get (s : Skiplist) (key : Key) : Option Entry :=
  match (s.findGreaterOrEqual key (2 ^ 64 - 1) fun _ => 0).1 with
  | some n => if (s.entry n).key = key then some (s.entry n) else none
  | none => none

/-- `SeekToFirst`, then `Next` while `Valid`. -/
def iterate (s : Skiplist) : Nat → Option Nat → List Entry
  | 0, _ => []
  | _, none => []
  | fuel + 1, some n => s.entry n :: s.iterate fuel (s.next 0 n)

/-- The table after the calls; `RandomHeight` is at least 1. -/
def build (adds : List (Entry × Fin kMaxHeight)) : Skiplist :=
  adds.foldl (fun s a => s.add a.1 (a.2 + 1)) {}

/-! ## The levels. -/

/-- The lists that the levels link. -/
structure Levels (s : Skiplist) (L : Nat → List Nat) : Prop where
  linked : ∀ level, Linked (s.next level) 0 (L level)
  sorted : (L 0).Pairwise fun a b => Lt (s.entry a) (s.entry b)
  sublist : ∀ level, (L (level + 1)).Sublist (L level)
  nodes : (L 0).Perm (List.range' 1 s.count)
  high : ∀ level, s.maxHeight ≤ level → L level = []
  pos : 1 ≤ s.maxHeight

namespace Levels

variable {L : Nat → List Nat}

theorem empty : Levels {} fun _ => [] :=
  ⟨fun _ => rfl, .nil, fun _ => List.Sublist.refl _, List.Perm.refl _, fun _ _ => rfl, Nat.le_refl 1⟩

theorem sublist_zero (h : Levels s L) (level : Nat) : (L level).Sublist (L 0) := by
  induction level with
  | zero => exact List.Sublist.refl _
  | succ level ih => exact (h.sublist level).trans ih

theorem mem_bounds (h : Levels s L) {n : Nat} (hn : n ∈ L level) : 1 ≤ n ∧ n ≤ s.count := by
  have hmem := h.nodes.mem_iff.mp ((h.sublist_zero level).subset hn)
  rw [List.mem_range'_1] at hmem
  omega

theorem nodup (h : Levels s L) (level : Nat) : (0 :: L level).Nodup := by
  refine List.nodup_cons.mpr ⟨fun hzero => absurd (h.mem_bounds hzero).1 (by decide), ?_⟩
  exact (h.nodes.nodup_iff.mpr List.nodup_range').sublist (h.sublist_zero level)

theorem length_le (h : Levels s L) (level : Nat) : (L level).length ≤ s.count := by
  have hlen := h.nodes.length_eq
  rw [List.length_range'] at hlen
  exact hlen ▸ (h.sublist_zero level).length_le

theorem below_iff {n : Nat} :
    s.below key seqno n = true ↔ Lt (s.entry n) ⟨key, seqno, .put, []⟩ := by
  rw [lt_iff_internalCompare]
  exact decide_eq_true_iff

theorem closed (h : Levels s L) (key : Key) (seqno level : Nat) :
    Closed (s.below key seqno) (L level) := by
  refine (h.sorted.sublist (h.sublist_zero level)).imp fun hab hb => ?_
  exact below_iff.mpr (hab.trans (below_iff.mp hb))

/-! ## The search. -/

theorem advance_eq {x fuel : Nat} {l : List Nat} (hlinked : Linked (s.next level) x l)
    (hclosed : Closed (s.below key seqno) l) (hfuel : l.length ≤ fuel) :
    s.advance key seqno level fuel x = (l.filter (s.below key seqno)).getLastD x := by
  induction l generalizing x fuel with
  | nil =>
    cases fuel with
    | zero => rfl
    | succ fuel =>
      rw [advance, show s.next level x = none from hlinked]
      rfl
  | cons n l ih =>
    obtain ⟨hhead, htail⟩ := pairwise_cons.mp hclosed
    cases fuel with
    | zero => cases hfuel
    | succ fuel =>
      rw [advance, hlinked.1]
      dsimp only
      cases hn : s.below key seqno n with
      | true =>
        rw [if_pos rfl, filter_cons_of_pos hn, List.getLastD_cons]
        exact ih hlinked.2 htail (Nat.le_of_succ_le_succ hfuel)
      | false =>
        have hnone : (n :: l).filter (s.below key seqno) = [] := by
          rw [List.filter_cons_of_neg (by simp [hn])]
          refine List.filter_eq_nil_iff.mpr fun b hb hpb => ?_
          rw [hhead b hb hpb] at hn
          cases hn
        rw [if_neg (by simp), hnone]
        rfl

/-- The last node of a level that is below, or `head_`. -/
def pred (s : Skiplist) (key : Key) (seqno : Nat) (l : List Nat) : Nat :=
  (l.filter (s.below key seqno)).getLastD 0

theorem advance_from (h : Levels s L) {above : List Nat} (hsub : above.Sublist (L level)) :
    s.advance key seqno level s.count (pred s key seqno above) = pred s key seqno (L level) := by
  have hclosed := h.closed key seqno level
  have hmem := getLastD_mem 0 (above.filter (s.below key seqno))
  cases mem_cons.mp hmem with
  | inl hzero =>
    unfold pred
    rw [hzero]
    exact advance_eq (h.linked level) hclosed (h.length_le level)
  | inr hin =>
    obtain ⟨hin, hbelow⟩ := mem_filter.mp hin
    obtain ⟨front, back, hL⟩ := append_of_mem (hsub.subset hin)
    unfold pred
    generalize (above.filter (s.below key seqno)).getLastD 0 = x at hbelow hL
    have hlen := h.length_le level
    have hlinked := h.linked level
    rw [hL] at hlinked hclosed hlen ⊢
    rw [length_append, length_cons] at hlen
    rw [filter_append, filter_cons_of_pos hbelow, getLastD_append_cons]
    exact advance_eq (hlinked.drop).2 (pairwise_cons.mp (pairwise_append.mp hclosed).2.1).2
      (by omega)

theorem descend_eq (h : Levels s L) {above : List Nat} (hsub : above.Sublist (L level))
    (prev : Nat → Nat) :
    s.descend key seqno level (pred s key seqno above) prev =
      ((L 0).find? (!s.below key seqno ·),
        fun i => if i ≤ level then pred s key seqno (L i) else prev i) := by
  induction level generalizing above prev with
  | zero =>
    have hsplit := (h.closed key seqno 0).split
    have hlinked := h.linked 0
    rw [← hsplit] at hlinked
    rw [descend, h.advance_from hsub]
    refine Prod.ext ?_ (funext fun i => ?_)
    · show s.next 0 (pred s key seqno (L 0)) = _
      rw [← List.head?_filter]
      exact hlinked.drop.head?
    · show update prev 0 _ i = if i ≤ 0 then _ else _
      by_cases hi : i = 0
      · rw [hi, update_self, if_pos (Nat.le_refl 0)]
      · rw [update_of_ne hi, if_neg (by omega)]
  | succ level ih =>
    rw [descend, h.advance_from hsub]
    show s.descend key seqno level (pred s key seqno (L (level + 1))) _ = _
    rw [ih (h.sublist level)]
    refine Prod.ext rfl (funext fun i => ?_)
    show (if i ≤ level then _ else update prev (level + 1) _ i) = if i ≤ level + 1 then _ else _
    rcases Nat.lt_trichotomy i (level + 1) with hlt | heq | hgt
    · rw [if_pos (by omega), if_pos (by omega)]
    · rw [heq, if_neg (by omega), update_self, if_pos le_rfl]
    · rw [if_neg (by omega), update_of_ne (by omega), if_neg (by omega)]

theorem find_eq (h : Levels s L) (key : Key) (seqno : Nat) (prev : Nat → Nat) :
    s.findGreaterOrEqual key seqno prev = ((L 0).find? (!s.below key seqno ·),
      fun i => if i < s.maxHeight then pred s key seqno (L i) else prev i) := by
  have hpos := h.pos
  have hdescend := @descend_eq s key seqno (s.maxHeight - 1) L h [] (List.nil_sublist _) prev
  refine hdescend.trans (Prod.ext rfl (funext fun i => ?_))
  by_cases hi : i < s.maxHeight
  · exact (if_pos (by omega)).trans (if_pos hi).symm
  · exact (if_neg (by omega)).trans (if_neg hi).symm

theorem prev_eq (h : Levels s L) (key : Key) (seqno level : Nat) :
    (s.findGreaterOrEqual key seqno fun _ => 0).2 level = pred s key seqno (L level) := by
  rw [h.find_eq]
  by_cases hi : level < s.maxHeight
  · exact if_pos hi
  · rw [h.high level (Nat.le_of_not_lt hi)]
    exact if_neg hi

/-! ## One call. -/

theorem add_next (h : Levels s L) (e : Entry) {height : Nat} :
    (s.add e height).next level = if level < height then
      fun y => if y = s.count + 1 then s.next level (pred s e.key e.seqno (L level))
        else if y = pred s e.key e.seqno (L level) then some (s.count + 1) else s.next level y
      else s.next level := by
  unfold add
  rw [← h.prev_eq]
  by_cases hlevel : level < height
  · simp only [if_pos hlevel]
  · simp only [if_neg hlevel]

/-- The levels with a new node in its place. -/
def added (s : Skiplist) (L : Nat → List Nat) (e : Entry) (height level : Nat) : List Nat :=
  if level < height then (L level).filter (s.below e.key e.seqno) ++
    (s.count + 1) :: (L level).filter (!s.below e.key e.seqno ·)
  else L level

theorem added_zero_perm (h : Levels s L) (e : Entry) {height : Nat} (hheight : 1 ≤ height) :
    (added s L e height 0).Perm ((s.count + 1) :: L 0) := by
  unfold added
  rw [if_pos (by omega)]
  refine List.perm_middle.trans ?_
  rw [(h.closed e.key e.seqno 0).split]

theorem entry_add_self (s : Skiplist) (e : Entry) (height : Nat) :
    (s.add e height).entry (s.count + 1) = e := update_self _ _ _

theorem entry_add (h : Levels s L) (e : Entry) (height : Nat) {n : Nat} (hn : n ∈ L 0) :
    (s.add e height).entry n = s.entry n := by
  have hle := (h.mem_bounds hn).2
  exact update_of_ne (by omega) _ _

theorem add (h : Levels s L) {e : Entry} {height : Nat} (hheight : 1 ≤ height)
    (hnew : ∀ n ∈ L 0, (s.entry n).key = e.key → (s.entry n).seqno ≠ e.seqno) :
    Levels (s.add e height) (added s L e height) := by
  have hsplit := fun level => (h.closed e.key e.seqno level).split
  have hzero : added s L e height 0 = (L 0).filter (s.below e.key e.seqno) ++
      (s.count + 1) :: (L 0).filter (!s.below e.key e.seqno ·) := if_pos (by omega)
  refine ⟨fun level => ?_, ?_, fun level => ?_, ?_, fun level hhigh => ?_, ?_⟩
  · rw [h.add_next]
    unfold added
    by_cases hlevel : level < height
    · rw [if_pos hlevel, if_pos hlevel]
      refine Linked.insert ?_ ?_ ?_
      · rw [hsplit]
        exact h.linked level
      · rw [hsplit]
        exact h.nodup level
      · rw [hsplit]
        intro hmem
        cases mem_cons.mp hmem with
        | inl hhead => omega
        | inr hin => exact absurd (h.mem_bounds hin).2 (by omega)
    · rw [if_neg hlevel, if_neg hlevel]
      exact h.linked level
  · -- the new entry goes between those below it and those above
    have hsame := fun n => @entry_add s L h e height n
    have hself := entry_add_self s e height
    have hmem : ∀ {p : Nat → Bool} {n}, n ∈ (L 0).filter p → n ∈ L 0 := mem_of_mem_filter
    have hold : ∀ {l : List Nat}, l.Sublist (L 0) →
        l.Pairwise fun a b => Lt ((s.add e height).entry a) ((s.add e height).entry b) := by
      intro l hl
      refine (h.sorted.sublist hl).imp_of_mem fun ha hb hab => ?_
      rw [hsame _ (hl.subset ha), hsame _ (hl.subset hb)]
      exact hab
    have hlow : ∀ a ∈ (L 0).filter (s.below e.key e.seqno), Lt (s.entry a) e := fun a ha =>
      below_iff.mp (mem_filter.mp ha).2
    have hhigh : ∀ b ∈ (L 0).filter (!s.below e.key e.seqno ·), Lt e (s.entry b) := by
      intro b hb
      obtain ⟨hb, hnot⟩ := mem_filter.mp hb
      have hnot : ¬ Lt (s.entry b) e := fun hlt => by simp [below_iff.mpr hlt] at hnot
      rcases lt_trichotomy e.key (s.entry b).key with hlt | heq | hgt
      · exact .inl hlt
      · have hne := hnew b hb heq.symm
        have hle : ¬ e.seqno < (s.entry b).seqno := fun hlt => hnot (.inr ⟨heq.symm, hlt⟩)
        exact .inr ⟨heq, by show (s.entry b).seqno < e.seqno; omega⟩
      · exact absurd (.inl hgt) hnot
    rw [hzero]
    refine pairwise_append.mpr ⟨hold List.filter_sublist, pairwise_cons.mpr
      ⟨fun b hb => ?_, hold List.filter_sublist⟩, fun a ha b hb => ?_⟩
    · rw [hself, hsame b (hmem hb)]
      exact hhigh b hb
    · rw [hsame a (hmem ha)]
      cases mem_cons.mp hb with
      | inl heq =>
        rw [heq, hself]
        exact hlow a ha
      | inr hb =>
        rw [hsame b (hmem hb)]
        exact (hlow a ha).trans (hhigh b hb)
  · unfold added
    by_cases hlevel : level + 1 < height
    · rw [if_pos hlevel, if_pos (by omega)]
      exact ((h.sublist level).filter _).append (((h.sublist level).filter _).cons_cons _)
    · rw [if_neg hlevel]
      by_cases hbelow : level < height
      · rw [if_pos hbelow]
        refine (h.sublist level).trans ?_
        have hinsert := (List.Sublist.refl ((L level).filter (s.below e.key e.seqno))).append
          (List.sublist_cons_self (s.count + 1) ((L level).filter (!s.below e.key e.seqno ·)))
        rw [hsplit] at hinsert
        exact hinsert
      · rw [if_neg hbelow]
        exact h.sublist level
  · refine (h.added_zero_perm e hheight).trans ((h.nodes.cons _).trans ?_)
    show ((s.count + 1) :: List.range' 1 s.count).Perm (List.range' 1 (s.count + 1))
    rw [List.range'_1_concat, Nat.add_comm 1]
    exact (List.perm_append_singleton _ _).symm
  · have hmax : max s.maxHeight height ≤ level := hhigh
    unfold added
    rw [if_neg (by omega)]
    exact h.high level (by omega)
  · exact h.pos.trans (Nat.le_max_left _ _)

/-! ## Runs. -/

theorem build (adds : List (Entry × Fin kMaxHeight))
    (hdistinct : (adds.map fun a => (a.1.key, a.1.seqno)).Nodup) :
    ∃ L, Levels (build adds) L ∧
      ((L 0).map (Skiplist.build adds).entry).Perm (adds.map Prod.fst) := by
  induction adds using List.reverseRecOn with
  | nil => exact ⟨fun _ => [], empty, List.Perm.refl _⟩
  | append_singleton adds a ih =>
    rw [map_append, nodup_append] at hdistinct
    obtain ⟨L, h, hentries⟩ := ih hdistinct.1
    have hbuild : Skiplist.build (adds ++ [a]) = (Skiplist.build adds).add a.1 (a.2 + 1) :=
      foldl_append
    rw [hbuild]
    refine ⟨_, h.add (Nat.le_add_left 1 _) fun n hn hkey hseq => ?_, ?_⟩
    · have hmem := hentries.mem_iff.mp (mem_map_of_mem hn)
      obtain ⟨b, hb, hbn⟩ := mem_map.mp hmem
      refine hdistinct.2.2 _ (mem_map_of_mem hb) _ (mem_singleton.mpr rfl) ?_
      rw [hbn, hkey, hseq]
    · generalize Skiplist.build adds = s at h hentries
      have hsame : (L 0).map (s.add a.1 (a.2 + 1)).entry = (L 0).map s.entry :=
        List.map_congr_left fun n => h.entry_add a.1 _
      refine ((h.added_zero_perm a.1 (Nat.le_add_left 1 _)).map _).trans ?_
      rw [map_cons, entry_add_self, hsame, map_append]
      exact (hentries.cons a.1).trans (List.perm_append_singleton _ _).symm

theorem run (h : Levels s L) : SortedRuns.Run ((L 0).map s.entry) :=
  pairwise_map.mpr (h.sorted.imp SortedRuns.Lt.le)

theorem get_eq (h : Levels s L) (key : Key) :
    s.get key = MemTable.get ⟨(L 0).map s.entry, h.run, 0⟩ key := by
  unfold get MemTable.get
  rw [h.find_eq, List.dropWhile_map, List.head?_map, List.find?_not_eq_head?_dropWhile]
  show _ = Option.filter _ (((L 0).dropWhile (s.below key (2 ^ 64 - 1))).head?.map s.entry)
  cases ((L 0).dropWhile (s.below key (2 ^ 64 - 1))).head? with
  | none => rfl
  | some n =>
    show (if _ then _ else _) = Option.filter _ (some (s.entry n))
    by_cases hkey : (s.entry n).key = key
    · rw [if_pos hkey]
      exact (Option.filter_some_pos (by simpa using hkey)).symm
    · rw [if_neg hkey]
      exact (Option.filter_some_neg (by simpa using hkey)).symm

theorem iterate_eq {l : List Nat} {x fuel : Nat} (hlinked : Linked (s.next 0) x l)
    (hfuel : l.length ≤ fuel) : s.iterate fuel (s.next 0 x) = l.map s.entry := by
  induction l generalizing x fuel with
  | nil =>
    rw [show s.next 0 x = none from hlinked]
    cases fuel <;> rfl
  | cons n l ih =>
    cases fuel with
    | zero => cases hfuel
    | succ fuel =>
      rw [hlinked.1, iterate, ih hlinked.2 (Nat.le_of_succ_le_succ hfuel)]
      rfl

end Levels

theorem get_newest (m : MemTable) (hsorted : m.entries.Pairwise Lt)
    (hseq : ∀ e ∈ m.entries, e.seqno < 2 ^ 64) (e : Entry) :
    m.get key = some e ↔ Newest m.entries e ∧ e.key = key := by
  have hnewest : ∀ {e}, m.entries.find? (fun e => e.key = key) = some e →
      Newest m.entries e ∧ e.key = key := fun hfind => m.sorted.find?_newest (by convert hfind; rfl)
  rw [m.get_eq hseq]
  constructor
  · exact hnewest
  · intro h
    have hsome : (m.entries.find? fun e => e.key = key).isSome :=
      List.find?_isSome.mpr ⟨e, h.1.1, decide_eq_true h.2⟩
    obtain ⟨e', hfind⟩ := isSome_iff_exists.mp hsome
    obtain ⟨hnew, hk⟩ := hnewest hfind
    rw [h.1.unique hsorted hnew (h.2.trans hk.symm)]
    exact hfind

end Skiplist

open Skiplist in
/-- **The skiplist is a sorted multimap**, whatever heights the nodes were given. -/
theorem skiplist_sorted_multimap (adds : List (Entry × Fin kMaxHeight))
    (hdistinct : (adds.map fun a => (a.1.key, a.1.seqno)).Nodup)
    (hseq : ∀ a ∈ adds, a.1.seqno < 2 ^ 64) :
    let s := build adds
    ∃ L : Nat → List Nat,
      (∀ level, Linked (s.next level) 0 (L level) ∧
        (L level).Pairwise (fun a b => Lt (s.entry a) (s.entry b)) ∧
        (L (level + 1)).Sublist (L level)) ∧
      ((L 0).map s.entry).Perm (adds.map Prod.fst) ∧
      (∀ key seqno,
        (s.findGreaterOrEqual key seqno fun _ => 0).1 = (L 0).find? (!s.below key seqno ·) ∧
        ∀ level, ∃ front back, L level = front ++ back ∧
          (∀ n ∈ front, s.below key seqno n = true) ∧ (∀ n ∈ back, s.below key seqno n = false) ∧
          (s.findGreaterOrEqual key seqno fun _ => 0).2 level = front.getLastD 0) ∧
      (∀ key e, s.get key = some e ↔ Newest (adds.map Prod.fst) e ∧ e.key = key) ∧
      s.iterate s.count (s.next 0 0) = (L 0).map s.entry := by
  intro s
  obtain ⟨L, h, hperm⟩ := Levels.build adds hdistinct
  refine ⟨L, fun level => ⟨h.linked level, h.sorted.sublist (h.sublist_zero level),
    h.sublist level⟩, hperm, fun key seqno => ⟨?_, fun level => ?_⟩, fun key e => ?_,
    Levels.iterate_eq (h.linked 0) (h.length_le 0)⟩
  · rw [h.find_eq]
  · refine ⟨_, _, (h.closed key seqno level).split.symm, fun n hn => (mem_filter.mp hn).2,
      fun n hn => ?_, h.prev_eq key seqno level⟩
    simpa using (mem_filter.mp hn).2
  · have hbound : ∀ e ∈ (L 0).map s.entry, e.seqno < 2 ^ 64 := by
      intro e he
      obtain ⟨a, ha, hae⟩ := mem_map.mp (hperm.mem_iff.mp he)
      exact hae ▸ hseq a ha
    rw [h.get_eq, get_newest _ (pairwise_map.mpr h.sorted) hbound]
    unfold Newest
    simp only [hperm.mem_iff]

/-- Two versions of a key and another key, on one, three and two levels. -/
def threeAdds : List (Entry × Fin kMaxHeight) :=
  [(⟨[1], 5, .put, [7]⟩, ⟨0, by decide⟩), (⟨[1], 6, .put, [8]⟩, ⟨2, by decide⟩),
    (⟨[0], 7, .put, []⟩, ⟨1, by decide⟩)]

theorem skiplist_sorted_multimap_three :
    (Skiplist.build threeAdds).get [1] = some ⟨[1], 6, .put, [8]⟩ := by
  obtain ⟨_, _, _, _, hget, _⟩ := skiplist_sorted_multimap threeAdds (by decide) (by decide)
  rw [hget]
  exact ⟨⟨by decide, by decide⟩, rfl⟩

end Flotilla.Storage
