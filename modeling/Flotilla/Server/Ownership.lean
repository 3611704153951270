/-
  Server.Ownership — a group writes only inside its range.

  `birth` is a ghost: the range that each group starts with, fixed when the
  split that creates it enters its parent's log.  From there on the range of a
  group is a function of its log (`rangeAfter`), on every node.  `SplitsOk` and
  `KeysOk` say what the logs keep, `NodeOk` how far a node has come.
-/
import Flotilla.Lib.Positions
import Flotilla.Server.Cluster

namespace Flotilla.Server

open Flotilla.Txn (Key)

/-! ## The logs. -/

/-- What the splits in the logs keep true, wherever the writes go. -/
structure SplitsOk (birth : Nat → Option RangeDesc) (log : Nat → List Command) : Prop where
  root : birth 1 = some ⟨1, [], []⟩
  desc : ∀ {i d}, birth i = some d → d.id = i ∧ d.Contains d.start
  born : ∀ {i a c : Nat} {d : RangeDesc} {x : Key}, birth i = some d →
    (log i)[a]? = some (Command.split c x) →
    (rangeAfter d ((log i).take a)).Contains x → x ≠ d.start →
    birth c = some ⟨c, x, (rangeAfter d ((log i).take a)).endKey⟩
  unique : ∀ {i a j b c : Nat} {x y : Key}, (log i)[a]? = some (Command.split c x) →
    (log j)[b]? = some (Command.split c y) → i = j ∧ a = b
  notRoot : ∀ {i a : Nat} {x : Key}, (log i)[a]? ≠ some (Command.split 1 x)
  known : ∀ {i}, log i ≠ [] → birth i ≠ none
  origin : ∀ {c}, birth c ≠ none → c = 1 ∨
    ∃ (i a : Nat) (x : Key) (d : RangeDesc), birth i = some d ∧
      (log i)[a]? = some (Command.split c x) ∧
      (rangeAfter d ((log i).take a)).Contains x ∧ x ≠ d.start
  apart : ∀ {i j d e key}, birth i = some d → birth j = some e →
    (rangeAfter d (log i)).Contains key → (rangeAfter e (log j)).Contains key → i = j

/-- Every command finds its key in the range of its group. -/
def KeysOk (birth : Nat → Option RangeDesc) (log : Nat → List Command) : Prop :=
  ∀ (i a : Nat) (d : RangeDesc) (cmd : Command) (key : Key), birth i = some d →
    (log i)[a]? = some cmd → cmd.key? = some key → (rangeAfter d ((log i).take a)).Contains key

/-- The log of group `i` grows by `cmd`. -/
def grow (log : Nat → List Command) (i : Nat) (cmd : Command) : Nat → List Command :=
  Function.update log i (log i ++ [cmd])

theorem isPrefix_grow (log : Nat → List Command) (i : Nat) (cmd : Command) (j : Nat) :
    log j <+: grow log i cmd j := by
  unfold grow
  by_cases hj : j = i
  · rw [hj, update_self]
    exact prefix_append _ _
  · exact ⟨[], by rw [append_nil, update_of_ne hj]⟩

theorem getElem?_grow {log : Nat → List Command} {i j a : Nat} {cmd entry : Command}
    (h : (grow log i cmd j)[a]? = some entry) :
    ((log j)[a]? = some entry ∧ (grow log i cmd j).take a = (log j).take a) ∨
      (j = i ∧ a = (log i).length ∧ entry = cmd ∧ (grow log i cmd j).take a = log i) := by
  unfold grow at h ⊢
  by_cases hj : j = i
  · subst hj
    rw [update_self] at h ⊢
    rcases getElem?_concat_cases h with h | ⟨rfl, rfl⟩
    · obtain ⟨ha, _⟩ := getElem?_eq_some_iff.mp h
      exact .inl ⟨h, take_append_of_le_length (Nat.le_of_lt ha)⟩
    · exact .inr ⟨rfl, rfl, rfl, take_left⟩
  · rw [update_of_ne hj] at h ⊢
    exact .inl ⟨h, rfl⟩

section

variable {birth : Nat → Option RangeDesc} {log : Nat → List Command} {i : Nat} {d : RangeDesc}

theorem rangeAfter_grow (e : RangeDesc) (cmd : Command) (j : Nat) :
    rangeAfter e (grow log i cmd j) =
      if j = i then (rangeAfter e (log i)).shrink cmd else rangeAfter e (log j) := by
  unfold grow
  by_cases hj : j = i
  · rw [hj, update_self, if_pos rfl, rangeAfter_concat]
  · rw [update_of_ne hj, if_neg hj]

variable {j : Nat}

theorem getElem?_grow_of_old {cmd entry : Command} {a : Nat} (h : (log j)[a]? = some entry) :
    (grow log i cmd j)[a]? = some entry ∧ (grow log i cmd j).take a = (log j).take a := by
  obtain ⟨hlt, _⟩ := getElem?_eq_some_iff.mp h
  obtain ⟨rest, hrest⟩ := isPrefix_grow log i cmd j
  rw [← hrest, getElem?_append_left hlt, take_append_of_le_length (Nat.le_of_lt hlt)]
  exact ⟨h, rfl⟩

theorem SplitsOk.append (h : SplitsOk birth log) (hd : birth i = some d) {cmd : Command}
    (hsplit : ∀ c x, cmd ≠ .split c x) : SplitsOk birth (grow log i cmd) where
  root := h.root
  desc := h.desc
  born := by
    intro j a c e x hj hentry hin hne
    rcases getElem?_grow hentry with ⟨hold, htake⟩ | ⟨_, _, heq, _⟩
    · rw [htake] at hin ⊢
      exact h.born hj hold hin hne
    · exact absurd heq.symm (hsplit c x)
  unique := by
    intro j a k b c x y hj hk
    rcases getElem?_grow hj with ⟨hj, _⟩ | ⟨_, _, heq, _⟩
    · rcases getElem?_grow hk with ⟨hk, _⟩ | ⟨_, _, heq, _⟩
      · exact h.unique hj hk
      · exact absurd heq.symm (hsplit c y)
    · exact absurd heq.symm (hsplit c x)
  notRoot := by
    intro j a x hj
    rcases getElem?_grow hj with ⟨hj, _⟩ | ⟨_, _, heq, _⟩
    · exact h.notRoot hj
    · exact hsplit 1 x heq.symm
  known := by
    intro j hj
    by_cases hji : j = i
    · rw [hji, hd]
      simp
    · unfold grow at hj
      rw [update_of_ne hji] at hj
      exact h.known hj
  origin := by
    intro c hc
    rcases h.origin hc with rfl | ⟨j, a, x, e, hj, ha, hin, hne⟩
    · exact .inl rfl
    · obtain ⟨ha', htake⟩ := getElem?_grow_of_old ha
      exact .inr ⟨j, a, x, e, hj, ha', by rw [htake]; exact hin, hne⟩
  apart := by
    intro j k e f key hj hk hin hin'
    rw [rangeAfter_grow] at hin hin'
    have hsame : ∀ (e : RangeDesc) (j : Nat),
        (if j = i then (rangeAfter e (log i)).shrink cmd else rangeAfter e (log j)) =
          rangeAfter e (log j) := by
      intro e j
      split
      · rename_i hji
        rw [shrink_of_not_split hsplit, hji]
      · rfl
    rw [hsame] at hin hin'
    exact h.apart hj hk hin hin'

theorem KeysOk.grow {birth' : Nat → Option RangeDesc} (hkeys : KeysOk birth log)
    (h : SplitsOk birth log) (hext : ∀ {i d}, birth i = some d → birth' i = some d)
    (hd : birth i = some d) {cmd : Command}
    (hkey : ∀ key, cmd.key? = some key → (rangeAfter d (log i)).Contains key) :
    KeysOk birth' (grow log i cmd) := by
  intro j a e entry key hj hentry hk
  rcases getElem?_grow hentry with ⟨hold, htake⟩ | ⟨rfl, _, rfl, htake⟩
  · -- a group with a log was known before
    have hknown : birth j ≠ none := h.known (fun hnil => by rw [hnil] at hold; cases hold)
    obtain ⟨e', he'⟩ := ne_none_iff_exists'.mp hknown
    rw [hext he'] at hj
    obtain rfl := Option.some.inj hj
    rw [htake]
    exact hkeys j a e' entry key he' hold hk
  · rw [hext hd] at hj
    cases hj
    rw [htake]
    exact hkey key hk

/-- The groups known after a split enters the log of group `i`. -/
def spawnBirth (birth : Nat → Option RangeDesc) (range : RangeDesc) (c : Nat) (x : Key) :
    Nat → Option RangeDesc :=
  if range.Contains x ∧ x ≠ range.start then
    Function.update birth c (some ⟨c, x, range.endKey⟩)
  else birth

theorem spawnBirth_of_ne {range : RangeDesc} {c : Nat} {x : Key} (hj : j ≠ c) :
    spawnBirth birth range c x j = birth j := by
  unfold spawnBirth
  split
  · rw [update_of_ne hj]
  · rfl

theorem spawnBirth_cases {range e : RangeDesc} {c : Nat} {x : Key}
    (hj : spawnBirth birth range c x j = some e) :
    birth j = some e ∨
      (j = c ∧ range.Contains x ∧ x ≠ range.start ∧ e = ⟨c, x, range.endKey⟩) := by
  by_cases hjc : j = c
  · subst hjc
    unfold spawnBirth at hj
    split at hj
    · rename_i hin
      rw [update_self] at hj
      exact .inr ⟨rfl, hin.1, hin.2, (Option.some.inj hj).symm⟩
    · exact .inl hj
  · rw [spawnBirth_of_ne hjc] at hj
    exact .inl hj

section

variable {c : Nat} {x : Key}

theorem SplitsOk.unborn (h : SplitsOk birth log) (hroot : c ≠ 1)
    (hfresh : ∀ (j a : Nat) (y : Key), (log j)[a]? ≠ some (Command.split c y)) :
    birth c = none := by
  by_contra hc
  rcases h.origin hc with hc | ⟨j, a, y, _, _, hj, _⟩
  · exact hroot hc
  · exact hfresh j a y hj

variable {e : RangeDesc} {j : Nat}

theorem SplitsOk.spawnBirth_keeps (h : SplitsOk birth log) (hroot : c ≠ 1)
    (hfresh : ∀ (j a : Nat) (y : Key), (log j)[a]? ≠ some (Command.split c y)) {range : RangeDesc}
    (hj : birth j = some e) :
    spawnBirth birth range c x j = some e := by
  rw [spawnBirth_of_ne, hj]
  rintro rfl
  rw [h.unborn hroot hfresh] at hj
  cases hj

theorem contains_split (h : SplitsOk birth log) (hd : birth i = some d) (hunborn : birth c = none)
    {key : Key} (hj : spawnBirth birth (rangeAfter d (log i)) c x j = some e)
    (hin : (rangeAfter e (grow log i (.split c x) j)).Contains key) :
    (j ≠ c ∧ j ≠ i ∧ birth j = some e ∧ (rangeAfter e (log j)).Contains key) ∨
      ((rangeAfter d (log i)).Contains key ∧ (j = i ∨ j = c) ∧
        ((rangeAfter d (log i)).Contains x ∧ x ≠ d.start →
          (j = i → key < x) ∧ (j = c → x ≤ key))) := by
  have hstart := (rangeAfter_start d (log i)).1
  have hempty : log c = [] := by
    by_contra hc
    exact h.known hc hunborn
  have hic : i ≠ c := by
    rintro rfl
    rw [hunborn] at hd
    cases hd
  rw [rangeAfter_grow] at hin
  rcases spawnBirth_cases hj with hwas | ⟨rfl, hx, hne, rfl⟩
  · by_cases hji : j = i
    · -- the parent keeps what lies below the split key
      subst hji
      rw [if_pos rfl] at hin
      rw [hd] at hwas
      cases hwas
      refine .inr ⟨contains_shrink.1 hin, .inl rfl, fun hx => ⟨fun _ => ?_, fun hjc =>
        absurd hjc hic⟩⟩
      rw [shrink_split hx.1 (by rw [hstart]; exact hx.2)] at hin
      have hnil : x ≠ [] := by
        rintro rfl
        have hle := hx.1.1
        rw [hstart] at hle
        exact hx.2 (le_antisymm (le_of_not_gt (not_lt_nil _)) hle)
      exact hin.2.resolve_left hnil
    · rw [if_neg hji] at hin
      have hjc : j ≠ c := by
        rintro rfl
        rw [hunborn] at hwas
        cases hwas
      exact .inl ⟨hjc, hji, hwas, hin⟩
  · -- the child starts at the split key
    rw [if_neg (fun hji => hic hji.symm), hempty] at hin
    have hcut := (contains_cut hx hne j).mpr (.inr hin)
    exact .inr ⟨hcut, .inr rfl, fun _ => ⟨fun hji => absurd hji.symm hic, fun _ => hin.1⟩⟩

theorem SplitsOk.apart_split (h : SplitsOk birth log) (hd : birth i = some d)
    (hunborn : birth c = none) {k : Nat} {f : RangeDesc} {key : Key}
    (hj : spawnBirth birth (rangeAfter d (log i)) c x j = some e)
    (hk : spawnBirth birth (rangeAfter d (log i)) c x k = some f)
    (hin : (rangeAfter e (grow log i (.split c x) j)).Contains key)
    (hin' : (rangeAfter f (grow log i (.split c x) k)).Contains key) : j = k := by
  rcases contains_split h hd hunborn hj hin with ⟨_, hji, hj', hin₁⟩ | ⟨hin₁, hwho, hside⟩
  · rcases contains_split h hd hunborn hk hin' with ⟨_, _, hk', hin₂⟩ | ⟨hin₂, _, _⟩
    · exact h.apart hj' hk' hin₁ hin₂
    · exact absurd (h.apart hj' hd hin₁ hin₂) hji
  · rcases contains_split h hd hunborn hk hin' with ⟨_, hki, hk', hin₂⟩ | ⟨_, hwho', hside'⟩
    · exact absurd (h.apart hk' hd hin₂ hin₁) hki
    · -- both are parts of the range that was cut
      by_cases hx : (rangeAfter d (log i)).Contains x ∧ x ≠ d.start
      · rcases hwho with rfl | rfl <;> rcases hwho' with rfl | rfl
        · rfl
        · exact absurd ((hside hx).1 rfl) (not_lt_of_ge ((hside' hx).2 rfl))
        · exact absurd ((hside' hx).1 rfl) (not_lt_of_ge ((hside hx).2 rfl))
        · rfl
      · -- no child was born
        have hnochild : ∀ {j e}, spawnBirth birth (rangeAfter d (log i)) c x j = some e →
            j ≠ c := by
          rintro j e hj rfl
          rcases spawnBirth_cases hj with hwas | ⟨_, hin, hne, _⟩
          · rw [hunborn] at hwas
            cases hwas
          · rw [(rangeAfter_start d (log i)).1] at hne
            exact hx ⟨hin, hne⟩
        rw [hwho.resolve_right (hnochild hj), hwho'.resolve_right (hnochild hk)]

theorem SplitsOk.split (h : SplitsOk birth log) (hd : birth i = some d)
    (hroot : c ≠ 1) (hfresh : ∀ (j a : Nat) (y : Key), (log j)[a]? ≠ some (Command.split c y)) :
    SplitsOk (spawnBirth birth (rangeAfter d (log i)) c x) (grow log i (.split c x)) := by
  have hunborn := h.unborn hroot hfresh
  have hold : ∀ {j e}, birth j = some e →
      spawnBirth birth (rangeAfter d (log i)) c x j = some e := h.spawnBirth_keeps hroot hfresh
  have hstart := (rangeAfter_start d (log i)).1
  constructor
  case root => exact hold h.root
  case desc =>
    intro j e hj
    rcases spawnBirth_cases hj with hj | ⟨rfl, hin, _, rfl⟩
    · exact h.desc hj
    · exact ⟨rfl, le_refl _, hin.2⟩
  case born =>
    intro j a c' e y hj hentry hin hne
    rcases spawnBirth_cases hj with hwas | ⟨rfl, _, _, _⟩
    · rcases getElem?_grow hentry with ⟨hentry', htake⟩ | ⟨rfl, _, heq, htake⟩
      · rw [htake] at hin ⊢
        exact hold (h.born hwas hentry' hin hne)
      · rw [htake] at hin ⊢
        cases heq
        rw [hd] at hwas
        cases hwas
        unfold spawnBirth
        rw [if_pos ⟨hin, by rw [hstart]; exact hne⟩, update_self]
    · -- the child's log is still empty
      rcases getElem?_grow hentry with ⟨hentry', _⟩ | ⟨rfl, _⟩
      · exact absurd hunborn (h.known (fun hnil => by rw [hnil] at hentry'; cases hentry'))
      · rw [hunborn] at hd
        cases hd
  case unique =>
    intro j a k b c' y z hj hk
    rcases getElem?_grow hj with ⟨hj', _⟩ | ⟨hji, hai, heq, _⟩
    · rcases getElem?_grow hk with ⟨hk', _⟩ | ⟨_, _, heq, _⟩
      · exact h.unique hj' hk'
      · cases heq
        exact absurd hj' (hfresh j a y)
    · cases heq
      rcases getElem?_grow hk with ⟨hk', _⟩ | ⟨hki, hbi, _, _⟩
      · exact absurd hk' (hfresh k b z)
      · exact ⟨hji.trans hki.symm, hai.trans hbi.symm⟩
  case notRoot =>
    intro j a y hj
    rcases getElem?_grow hj with ⟨hj, _⟩ | ⟨_, _, heq, _⟩
    · exact h.notRoot hj
    · cases heq
      exact hroot rfl
  case known =>
    intro j hj
    have hknown : birth j ≠ none := by
      by_cases hji : j = i
      · rw [hji, hd]
        simp
      · unfold grow at hj
        rw [update_of_ne hji] at hj
        exact h.known hj
    obtain ⟨e, he⟩ := ne_none_iff_exists'.mp hknown
    rw [hold he]
    simp
  case origin =>
    intro j hj
    obtain ⟨e, he⟩ := ne_none_iff_exists'.mp hj
    rcases spawnBirth_cases he with he | ⟨rfl, hin, hne, _⟩
    · rcases h.origin (by rw [he]; simp) with rfl | ⟨k, a, y, f, hk, ha, hin, hne⟩
      · exact .inl rfl
      · obtain ⟨ha', htake⟩ := getElem?_grow_of_old ha
        exact .inr ⟨k, a, y, f, hold hk, ha', by rw [htake]; exact hin, hne⟩
    · rw [hstart] at hne
      refine .inr ⟨i, (log i).length, x, d, hold hd, ?_, ?_, hne⟩
      · unfold grow
        rw [update_self, List.getElem?_concat_length]
      · unfold grow
        rw [update_self, take_left]
        exact hin
  case apart => exact fun hj hk hin hin' => h.apart_split hd hunborn hj hk hin hin'

end

end

/-- The groups of an empty cluster: one, over everything. -/
def rootBirth : Nat → Option RangeDesc := Function.update (fun _ => none) 1 (some ⟨1, [], []⟩)

/-- The groups that a history has made known, its last entry first. -/
def birthsRev : List (Nat × Command) → Nat → Option RangeDesc
  | [] => rootBirth
  | (i, cmd) :: rest =>
      match cmd, birthsRev rest i with
      | .split c x, some d =>
          let log := (rest.reverse.filter (fun e => e.1 = i)).map Prod.snd
          spawnBirth (birthsRev rest) (rangeAfter d log) c x
      | _, _ => birthsRev rest

/-- The range that each group of the cluster was born with. -/
def Cluster.birth (s : Cluster) : Nat → Option RangeDesc := birthsRev s.history.reverse

/-! ## How far a node has come. -/

/-- The range by which requests are routed: that of the entries applied in full. -/
def Group.routed (g : Group) : RangeDesc :=
  match g.spawning with
  | some child => { g.range with endKey := child.endKey }
  | none => g.range

/-- A group of a node against its log; `d` is the range it was born with. -/
structure GroupOk (birth : Nat → Option RangeDesc) (log : List Command) (db : Db) (d : RangeDesc)
    (g : Group) : Prop where
  applied : g.appliedIndex ≤ log.length
  routed : g.routed = rangeAfter d (log.take g.appliedIndex)
  idle : g.applying = false → g.spawning = none
  busy : g.applying = true → g.appliedIndex < log.length ∧
    g.range = rangeAfter d (log.take (g.appliedIndex + 1))
  child : ∀ {e : RangeDesc}, g.spawning = some e → birth e.id = some e ∧
    db.rangeKey e.id = some e ∧ e.endKey = g.routed.endKey ∧ g.routed.Contains e.start ∧
    e.start ≠ d.start ∧ g.range.endKey = e.start ∧
    log[g.appliedIndex]? = some (Command.split e.id e.start)

structure NodeOk (birth : Nat → Option RangeDesc) (log : Nat → List Command) (n : Node) : Prop where
  group : ∀ {i g}, n.groups.lookup i = some g → ∃ d, birth i = some d ∧ GroupOk birth (log i) n.db d g
  tiling : Tiling (fun i => (n.groups.lookup i).map Group.routed) n.routing
  described : ∀ {c}, n.db.rangeKey c ≠ none → c = 1 ∨ ∃ (i : Nat) (g : Group) (a : Nat) (x : Key),
    n.groups.lookup i = some g ∧ (log i)[a]? = some (Command.split c x) ∧
    (a < g.appliedIndex ∨ (a = g.appliedIndex ∧ g.applying = true))
  hosted : ∀ {c}, n.groups.lookup c ≠ none → c = 1 ∨ ∃ (i : Nat) (g : Group) (a : Nat) (x : Key),
    n.groups.lookup i = some g ∧ (log i)[a]? = some (Command.split c x) ∧ a < g.appliedIndex
  marker : ∀ {c}, n.db.appliedKey c ≠ none → n.groups.lookup c ≠ none

section

variable {birth birth' : Nat → Option RangeDesc} {log log' : Nat → List Command} {n : Node}

theorem NodeOk.mono (h : NodeOk birth log n) (hbirth : ∀ {i d}, birth i = some d → birth' i = some d)
    (hlog : ∀ i, log i <+: log' i) : NodeOk birth' log' n where
  group := by
    intro i g hg
    obtain ⟨d, hd, hok⟩ := h.group hg
    obtain ⟨rest, hrest⟩ := hlog i
    refine ⟨d, hbirth hd, ?_, ?_, hok.idle, fun hb => ?_, fun he => ?_⟩
    · exact hok.applied.trans (hlog i).length_le
    · rw [← hrest, take_append_of_le_length hok.applied]
      exact hok.routed
    · obtain ⟨hlt, hrange⟩ := hok.busy hb
      refine ⟨hlt.trans_le (hlog i).length_le, ?_⟩
      rw [← hrest, take_append_of_le_length hlt]
      exact hrange
    · obtain ⟨hb, hdb, hend, hin, hne, hrange, hentry⟩ := hok.child he
      refine ⟨hbirth hb, hdb, hend, hin, hne, hrange, ?_⟩
      obtain ⟨hlt, _⟩ := getElem?_eq_some_iff.mp hentry
      rw [← hrest, getElem?_append_left hlt]
      exact hentry
  tiling := h.tiling
  described := by
    intro c hc
    rcases h.described hc with rfl | ⟨i, g, a, x, hg, ha, hle⟩
    · exact .inl rfl
    · obtain ⟨hlt, _⟩ := getElem?_eq_some_iff.mp ha
      obtain ⟨rest, hrest⟩ := hlog i
      refine .inr ⟨i, g, a, x, hg, ?_, hle⟩
      rw [← hrest, getElem?_append_left hlt]
      exact ha
  hosted := by
    intro c hc
    rcases h.hosted hc with rfl | ⟨i, g, a, x, hg, ha, hle⟩
    · exact .inl rfl
    · obtain ⟨hlt, _⟩ := getElem?_eq_some_iff.mp ha
      obtain ⟨rest, hrest⟩ := hlog i
      refine .inr ⟨i, g, a, x, hg, ?_, hle⟩
      rw [← hrest, getElem?_append_left hlt]
      exact ha
  marker := h.marker

variable {g : Group} {i : Nat}

theorem NodeOk.not_hosted (h : NodeOk birth log n) (hlogs : SplitsOk birth log) {a c : Nat}
    {x : Key} (hg : n.groups.lookup i = some g) (ha : (log i)[a]? = some (Command.split c x))
    (hle : g.appliedIndex ≤ a) :
    n.groups.lookup c = none := by
  by_contra hc
  rcases h.hosted hc with rfl | ⟨j, g', b, y, hg', hb, hlt⟩
  · exact hlogs.notRoot ha
  · obtain ⟨rfl, rfl⟩ := hlogs.unique ha hb
    rw [hg] at hg'
    cases hg'
    omega

theorem NodeOk.not_described (h : NodeOk birth log n) (hlogs : SplitsOk birth log) {c : Nat}
    {x : Key} (hg : n.groups.lookup i = some g) (hidle : g.applying = false)
    (ha : (log i)[g.appliedIndex]? = some (Command.split c x)) : n.db.rangeKey c = none := by
  by_contra hc
  rcases h.described hc with rfl | ⟨j, g', b, y, hg', hb, hle⟩
  · exact hlogs.notRoot ha
  · obtain ⟨rfl, rfl⟩ := hlogs.unique ha hb
    rw [hg] at hg'
    cases hg'
    rcases hle with hlt | ⟨_, hbusy⟩
    · omega
    · rw [hidle] at hbusy
      cases hbusy

/-! ## Applying an entry. -/

theorem take_succ_of_getElem? {α : Type} {l : List α} {a : Nat} {x : α} (h : l[a]? = some x) :
    l.take (a + 1) = l.take a ++ [x] := by
  rw [take_add_one, h]
  rfl

theorem NodeOk.replace (h : NodeOk birth log n) {g' : Group} {db : Db}
    (hg : n.groups.lookup i = some g) (happlied : g'.appliedIndex = g.appliedIndex)
    (hroutes : g'.routed = g.routed) (hbusy : g.applying = true → g'.applying = true)
    (hok : ∃ d, birth i = some d ∧ GroupOk birth (log i) db d g')
    (hkept : ∀ {j gj e}, j ≠ i → n.groups.lookup j = some gj → gj.spawning = some e →
      db.rangeKey e.id = n.db.rangeKey e.id)
    (hdesc : ∀ {c}, db.rangeKey c ≠ none → n.db.rangeKey c ≠ none ∨ n.groups.lookup c ≠ none ∨
      (g'.applying = true ∧ ∃ x, (log i)[g.appliedIndex]? = some (Command.split c x)))
    (hmark : db.appliedKey = n.db.appliedKey) :
    NodeOk birth log { n with db := db, groups := n.groups.insert i g' } := by
  have hself : (n.groups.insert i g').lookup i = some g' := AList.lookup_insert _
  have hother : ∀ {j}, j ≠ i → (n.groups.insert i g').lookup j = n.groups.lookup j := fun hj =>
    AList.lookup_insert_ne hj
  -- an entry that was applied before is still
  have hentry : ∀ {c j gj a x}, n.groups.lookup j = some gj →
      (log j)[a]? = some (Command.split c x) → a < gj.appliedIndex →
      ∃ (j : Nat) (gj : Group) (a : Nat) (x : Key), (n.groups.insert i g').lookup j = some gj ∧
        (log j)[a]? = some (Command.split c x) ∧ a < gj.appliedIndex := by
    intro c j gj a x hj ha hlt
    by_cases hji : j = i
    · subst hji
      rw [hg] at hj
      cases hj
      exact ⟨j, g', a, x, hself, ha, by rw [happlied]; exact hlt⟩
    · exact ⟨j, gj, a, x, (hother hji).trans hj, ha, hlt⟩
  have hhosted : ∀ {c}, n.groups.lookup c ≠ none → c = 1 ∨
      ∃ (j : Nat) (gj : Group) (a : Nat) (x : Key), (n.groups.insert i g').lookup j = some gj ∧
        (log j)[a]? = some (Command.split c x) ∧ a < gj.appliedIndex := by
    intro c hc
    rcases h.hosted hc with rfl | ⟨j, gj, a, x, hj, ha, hlt⟩
    · exact .inl rfl
    · exact .inr (hentry hj ha hlt)
  refine ⟨fun {j gj} hj => ?_, ?_, fun {c} hc => ?_, fun {c} hc => ?_, fun {c} hc => ?_⟩
  · by_cases hji : j = i
    · subst hji
      rw [hself] at hj
      cases hj
      exact hok
    · rw [hother hji] at hj
      obtain ⟨e, he, hgj⟩ := h.group hj
      refine ⟨e, he, hgj.applied, hgj.routed, hgj.idle, hgj.busy, fun {f} hf => ?_⟩
      obtain ⟨hb, hdb, hrest⟩ := hgj.child hf
      exact ⟨hb, (hkept hji hj hf).trans hdb, hrest⟩
  · have hown : (fun j => ((n.groups.insert i g').lookup j).map Group.routed) =
        fun j => (n.groups.lookup j).map Group.routed := by
      funext j
      by_cases hji : j = i
      · rw [hji, hself, hg]
        show some g'.routed = some g.routed
        rw [hroutes]
      · rw [hother hji]
    show Tiling (fun j => ((n.groups.insert i g').lookup j).map Group.routed) n.routing
    rw [hown]
    exact h.tiling
  · rcases hdesc hc with hc | hc | ⟨happlying, x, ha⟩
    · rcases h.described hc with rfl | ⟨j, gj, a, x, hj, ha, hlt | ⟨rfl, hb⟩⟩
      · exact .inl rfl
      · obtain ⟨j', gj', a', x', hj', ha', hlt'⟩ := hentry hj ha hlt
        exact .inr ⟨j', gj', a', x', hj', ha', .inl hlt'⟩
      · by_cases hji : j = i
        · subst hji
          rw [hg] at hj
          cases hj
          exact .inr ⟨j, g', g.appliedIndex, x, hself, ha, .inr ⟨happlied.symm, hbusy hb⟩⟩
        · exact .inr ⟨j, gj, gj.appliedIndex, x, (hother hji).trans hj, ha, .inr ⟨rfl, hb⟩⟩
    · rcases hhosted hc with rfl | ⟨j, gj, a, x, hj, ha, hlt⟩
      · exact .inl rfl
      · exact .inr ⟨j, gj, a, x, hj, ha, .inl hlt⟩
    · exact .inr ⟨i, g', g.appliedIndex, x, hself, ha, .inr ⟨happlied.symm, happlying⟩⟩
  · apply hhosted
    by_cases hci : c = i
    · rw [hci, hg]
      simp
    · have hc : (n.groups.insert i g').lookup c ≠ none := hc
      rw [hother hci] at hc
      exact hc
  · have hc : db.appliedKey c ≠ none := hc
    rw [hmark] at hc
    show (n.groups.insert i g').lookup c ≠ none
    by_cases hci : c = i
    · rw [hci, hself]
      simp
    · rw [hother hci]
      exact h.marker hc

theorem NodeOk.applyBegin (h : NodeOk birth log n) (hlogs : SplitsOk birth log) {i : Nat} {g : Group}
    {cmd : Command} (hg : n.groups.lookup i = some g) (hidle : g.applying = false)
    (hentry : (log i)[g.appliedIndex]? = some cmd) : NodeOk birth log (n.applyBegin i cmd) := by
  obtain ⟨d, hd, hok⟩ := h.group hg
  have hquiet := hok.idle hidle
  have hrouted : g.routed = g.range := by
    unfold Group.routed
    rw [hquiet]
  have hrange : g.range = rangeAfter d ((log i).take g.appliedIndex) := hrouted ▸ hok.routed
  have hstart : g.range.start = d.start := by
    rw [hrange]
    exact (rangeAfter_start d _).1
  have hid : g.range.id = i := by
    rw [hrange, (rangeAfter_start d _).2]
    exact (hlogs.desc hd).1
  obtain ⟨hlt, _⟩ := getElem?_eq_some_iff.mp hentry
  have hnext : rangeAfter d ((log i).take (g.appliedIndex + 1)) = g.range.shrink cmd := by
    rw [take_succ_of_getElem? hentry, rangeAfter_concat, ← hrange]
  have hprobe : ∀ c x, cmd = .split c x → n.db.rangeKey c = none := by
    rintro c x rfl
    exact h.not_described hlogs hg hidle hentry
  unfold Node.applyBegin
  rw [hg]
  dsimp only
  rcases g.applyCommand_spec i n.db cmd with ⟨hsame, hkeys, hmark, hshrink | ⟨c, x, hcmd, hc⟩⟩ |
    ⟨c, x, rfl, _, hin, hne, hcut, hkeys, hmark⟩
  · -- the range stays
    rw [hsame]
    refine h.replace hg rfl rfl (fun _ => rfl) ⟨d, hd, hok.applied, hok.routed, ?_, ?_, ?_⟩
      (fun {_ _ e} _ _ _ => by rw [hkeys]) (fun {c} hc => .inl (hkeys ▸ hc)) hmark
    · exact nofun
    · exact fun _ => ⟨hlt, by rw [hnext, hshrink]⟩
    · intro e he
      rw [hquiet] at he
      cases he
  · exact absurd (hprobe c x hcmd) hc
  · -- the range is cut, and the routing table does not know yet
    have hborn : birth c = some ⟨c, x, g.range.endKey⟩ := by
      have := hlogs.born hd hentry (hrange ▸ hin) (hstart ▸ hne)
      rw [← hrange] at this
      exact this
    have hunhosted := h.not_hosted hlogs hg hentry le_rfl
    have hci : c ≠ g.range.id := by
      rw [hid]
      rintro rfl
      rw [hg] at hunhosted
      cases hunhosted
    have hchild : (g.applyCommand i n.db (.split c x)).1.rangeKey c =
        some ⟨c, x, g.range.endKey⟩ := by
      rw [hkeys, update_of_ne hci, update_self]
    rw [hcut]
    refine h.replace hg rfl hrouted.symm (fun _ => rfl) ⟨d, hd, hok.applied, ?_, ?_, ?_, ?_⟩
      ?_ ?_ hmark
    · show g.range = _
      exact hrange
    · exact nofun
    · exact fun _ => ⟨hlt, by rw [hnext, shrink_split hin hne]⟩
    · intro e he
      cases he
      exact ⟨hborn, hchild, rfl, hin, hstart ▸ hne, rfl, hentry⟩
    · -- the child of another group is neither this child nor this group
      intro j gj e hji hj he
      obtain ⟨e', he', hgj⟩ := h.group hj
      obtain ⟨_, _, _, _, _, _, hsplit⟩ := hgj.child he
      have hec : e.id ≠ c := by
        intro heq
        rw [heq] at hsplit
        exact hji (hlogs.unique hsplit hentry).1
      have hei : e.id ≠ g.range.id := by
        rw [hid]
        intro heq
        have := h.not_hosted hlogs hj hsplit le_rfl
        rw [heq, hg] at this
        cases this
      rw [hkeys, update_of_ne hei, update_of_ne hec]
    · intro c' hc'
      rw [hkeys] at hc'
      by_cases hi : c' = g.range.id
      · right
        left
        rw [hi, hid, hg]
        simp
      · rw [update_of_ne hi] at hc'
        by_cases hcc : c' = c
        · exact .inr (.inr ⟨rfl, x, by rw [hcc]; exact hentry⟩)
        · rw [update_of_ne hcc] at hc'
          exact .inl hc'

theorem NodeOk.finish (h : NodeOk birth log n) (hg : n.groups.lookup i = some g)
    (hbusy : g.applying = true) {groups : AList (fun _ : Nat => Group)} {routing : List (Key × Nat)}
    (hself : groups.lookup i = some g.next)
    (hkeep : ∀ {j gj}, j ≠ i → n.groups.lookup j = some gj → groups.lookup j = some gj)
    (hnew : ∀ {j gj}, j ≠ i → groups.lookup j = some gj → n.groups.lookup j = some gj ∨
      ∃ e, g.spawning = some e ∧ j = e.id ∧ gj = { range := e, spawned := gj.spawned })
    (htiling : Tiling (fun j => (groups.lookup j).map Group.routed) routing) :
    NodeOk birth log
      { db := { n.db with appliedKey := update n.db.appliedKey i (some (g.appliedIndex + 1)) }
        groups := groups
        routing := routing } := by
  obtain ⟨d, hd, hok⟩ := h.group hg
  obtain ⟨hlt, hrange⟩ := hok.busy hbusy
  -- no group falls back, and this one moves on
  have hahead : ∀ {j gj}, n.groups.lookup j = some gj → ∃ gj', groups.lookup j = some gj' ∧
      (gj' = gj ∨ (gj'.appliedIndex = gj.appliedIndex + 1)) := by
    intro j gj hj
    by_cases hji : j = i
    · subst hji
      rw [hg] at hj
      cases hj
      exact ⟨g.next, hself, .inr rfl⟩
    · exact ⟨gj, hkeep hji hj, .inl rfl⟩
  refine ⟨fun {j gj} hj => ?_, htiling, fun {c} hc => ?_, fun {c} hc => ?_, fun {c} hc => ?_⟩
  · by_cases hji : j = i
    · subst hji
      have hj : groups.lookup j = some gj := hj
      rw [hself] at hj
      cases hj
      refine ⟨d, hd, hlt, hrange, fun _ => rfl, ?_, ?_⟩
      · exact nofun
      · exact nofun
    · rcases hnew hji hj with hj | ⟨e, he, rfl, hgj⟩
      · obtain ⟨e, he, hgj⟩ := h.group hj
        exact ⟨e, he, hgj.applied, hgj.routed, hgj.idle, hgj.busy, hgj.child⟩
      · refine ⟨e, (hok.child he).1, ?_⟩
        rw [hgj]
        refine ⟨Nat.zero_le _, rfl, fun _ => rfl, ?_, ?_⟩
        · exact nofun
        · exact nofun
  · rcases h.described hc with rfl | ⟨j, gj, a, x, hj, ha, hle⟩
    · exact .inl rfl
    · obtain ⟨gj', hj', rfl | hnext⟩ := hahead hj
      · exact .inr ⟨j, gj', a, x, hj', ha, hle⟩
      · exact .inr ⟨j, gj', a, x, hj', ha, .inl (by omega)⟩
  · by_cases hold : n.groups.lookup c = none
    · -- the child
      obtain ⟨gc, hgc⟩ := ne_none_iff_exists'.mp hc
      have hci : c ≠ i := by
        rintro rfl
        rw [hg] at hold
        cases hold
      rcases hnew hci hgc with hgc | ⟨e, he, rfl, _⟩
      · rw [hold] at hgc
        cases hgc
      · obtain ⟨_, _, _, _, _, _, hsplit⟩ := hok.child he
        exact .inr ⟨i, g.next, g.appliedIndex, e.start, hself, hsplit, Nat.lt_succ_self _⟩
    · rcases h.hosted hold with rfl | ⟨j, gj, a, x, hj, ha, hle⟩
      · exact .inl rfl
      · obtain ⟨gj', hj', rfl | hnext⟩ := hahead hj
        · exact .inr ⟨j, gj', a, x, hj', ha, hle⟩
        · exact .inr ⟨j, gj', a, x, hj', ha, by omega⟩
  · show groups.lookup c ≠ none
    by_cases hci : c = i
    · rw [hci, hself]
      simp
    · have hc : update n.db.appliedKey i (some (g.appliedIndex + 1)) c ≠ none := hc
      rw [update_of_ne hci] at hc
      obtain ⟨gc, hgc⟩ := ne_none_iff_exists'.mp (h.marker hc)
      rw [hkeep hci hgc]
      simp

theorem NodeOk.applyEnd (h : NodeOk birth log n) (hlogs : SplitsOk birth log) {i : Nat} {g : Group}
    (hg : n.groups.lookup i = some g) (hbusy : g.applying = true) :
    NodeOk birth log (n.applyEnd i) := by
  obtain ⟨d, hd, hok⟩ := h.group hg
  unfold Node.applyEnd
  rw [hg]
  dsimp only
  cases hspawn : g.spawning with
  | none =>
    have hown : (fun j => ((n.groups.insert i g.next).lookup j).map Group.routed) =
        fun j => (n.groups.lookup j).map Group.routed := by
      funext j
      by_cases hji : j = i
      · rw [hji, AList.lookup_insert, hg]
        show some g.range = some g.routed
        unfold Group.routed
        rw [hspawn]
      · rw [AList.lookup_insert_ne hji]
    refine h.finish hg hbusy (AList.lookup_insert _) ?_ ?_ (hown ▸ h.tiling)
    · intro j gj hji hj
      exact (AList.lookup_insert_ne hji).trans hj
    · intro j gj hji hj
      exact .inl ((AList.lookup_insert_ne hji).symm.trans hj)
  | some e =>
    obtain ⟨_, hdb, hend, hin, hne, hcut, hsplit⟩ := hok.child hspawn
    have hnone := h.not_hosted hlogs hg hsplit le_rfl
    have hie : i ≠ e.id := by
      rintro rfl
      rw [hg] at hnone
      cases hnone
    have hunmarked : n.db.appliedKey e.id = none := by
      by_contra hc
      exact h.marker hc hnone
    have hinit : Group.init n.db e = { range := e, spawned := (n.db.spawnsKey e.id).getD [] } := by
      unfold Group.init
      rw [hdb, hunmarked]
      rfl
    have hensure : n.ensureGroup e =
        { n with
          groups := n.groups.insert e.id { range := e, spawned := (n.db.spawnsKey e.id).getD [] }
          routing := insertRoute e.start e.id n.routing } := by
      unfold Node.ensureGroup
      rw [hnone]
      rw [hinit]
    dsimp only
    rw [hensure]
    have hstart : g.routed.start = d.start := by
      rw [hok.routed]
      exact (rangeAfter_start d _).1
    have hparent : g.next.routed = { g.routed with endKey := e.start } := by
      show g.range = _
      unfold Group.routed
      rw [hspawn, ← hcut]
    have hchild : e = ⟨e.id, e.start, g.routed.endKey⟩ := by rw [← hend]
    refine h.finish hg hbusy (AList.lookup_insert _) ?_ ?_ ?_
    · intro j gj hji hj
      have hje : j ≠ e.id := by
        rintro rfl
        rw [hnone] at hj
        cases hj
      exact (AList.lookup_insert_ne hji).trans ((AList.lookup_insert_ne hje).trans hj)
    · intro j gj hji hj
      have hj := (AList.lookup_insert_ne hji).symm.trans hj
      by_cases hje : j = e.id
      · subst hje
        rw [AList.lookup_insert] at hj
        cases hj
        exact .inr ⟨e, hspawn, rfl, rfl⟩
      · exact .inl ((AList.lookup_insert_ne hje).symm.trans hj)
    · have htiling := h.tiling.split (c := e.id) (x := e.start) (p := i) (d := g.routed)
        (by rw [hg]; rfl) hin (hstart ▸ hne) (by rw [hnone]; rfl)
      convert htiling using 1
      funext j
      by_cases hje : j = e.id
      · subst hje
        rw [AList.lookup_insert_ne (Ne.symm hie), AList.lookup_insert, cutAt_child, ← hchild]
        rfl
      · by_cases hji : j = i
        · subst hji
          rw [AList.lookup_insert, cutAt_parent hie, ← hparent]
          rfl
        · rw [AList.lookup_insert_ne hji, AList.lookup_insert_ne hje, cutAt_other hji hje]

end

end Flotilla.Server
