/-
  Server.WriteOrder — the raw writes of one key across groups.

  The writes of a key go through the groups of one branch, each of which hands
  the key on by a split.  Every node therefore applies them in the order in
  which they were appended, wherever its apply threads are, and the value it
  stores is that of a prefix of the history.
-/
import Flotilla.Lib.Interleaving
import Flotilla.Server.Lineage

namespace Flotilla.Server

open Node Interleaving
open Flotilla.Txn (Key)
open Flotilla.Interleaving (logOf rank)

/-! ## Raw writes. -/

/-- The key whose raw pair a command writes. -/
def Command.rawKey? : Command → Option Key
  | .put key _ => some key
  | .delete key => some key
  | _ => none

/-- The raw pair of `key` after a command. -/
def Command.raw (cmd : Command) (key : Key) (value : Option Bytes) : Option Bytes :=
  match cmd with
  | .put k v => if k = key then some v else value
  | .delete k => if k = key then none else value
  | _ => value

def rawAfter (key : Key) (history : List (Nat × Command)) : Option Bytes :=
  history.foldl (fun value e => e.2.raw key value) none

/-- Position `p` of the history is a raw write of the key, in the log of group `i`. -/
def Wrote (history : List (Nat × Command)) (key : Key) (p i : Nat) : Prop :=
  ∃ cmd, history[p]? = some (i, cmd) ∧ cmd.rawKey? = some key

section

variable {cmd : Command} {key : Key}

theorem Command.key?_of_rawKey? (h : cmd.rawKey? = some key) : cmd.key? = some key := by
  cases cmd with
  | put _ _ | delete _ => exact h
  | noop | split _ _ | txn _ | tsTick => cases h

theorem Command.raw_of_ne (h : cmd.rawKey? ≠ some key) (value : Option Bytes) :
    cmd.raw key value = value := by
  cases cmd with
  | put k v | delete k => exact if_neg (fun heq => h (congrArg some heq))
  | noop | split _ _ | txn _ | tsTick => rfl

theorem Command.raw_eq (h : cmd.rawKey? = some key) (value value' : Option Bytes) :
    cmd.raw key value = cmd.raw key value' := by
  cases cmd with
  | put k v =>
    cases h
    exact (if_pos rfl).trans (if_pos rfl).symm
  | delete k =>
    cases h
    exact (if_pos rfl).trans (if_pos rfl).symm
  | noop | split _ _ | txn _ | tsTick => cases h

theorem rawAfter_take_succ {history : List (Nat × Command)} {p i : Nat}
    (hp : history[p]? = some (i, cmd)) :
    rawAfter key (history.take (p + 1)) = cmd.raw key (rawAfter key (history.take p)) := by
  unfold rawAfter
  rw [take_succ_of_getElem? hp, foldl_append]
  rfl

end

/-! ## How much of a log a node has in its database. -/

/-- Counting the entry that is being applied. -/
def Group.done (g : Group) : Nat := if g.applying then g.appliedIndex + 1 else g.appliedIndex

def Node.done (n : Node) (i : Nat) : Nat := ((n.groups.lookup i).map Group.done).getD 0

section

variable {n : Node} {i : Nat} {g : Group}

theorem Node.done_of_lookup (hg : n.groups.lookup i = some g) : n.done i = g.done := by
  unfold Node.done
  rw [hg]
  rfl

theorem Group.appliedIndex_le_done (g : Group) : g.appliedIndex ≤ g.done := by
  unfold Group.done
  split <;> omega

theorem Node.appliedTo_le_done (n : Node) (i : Nat) : n.appliedTo i ≤ n.done i := by
  unfold appliedTo Node.done
  cases n.groups.lookup i with
  | none => exact Nat.le_refl 0
  | some g => exact g.appliedIndex_le_done

theorem NodeOk.done_le {birth : Nat → Option RangeDesc} {log : Nat → List Command}
    (h : NodeOk birth log n) (i : Nat) : n.done i ≤ (log i).length := by
  unfold Node.done
  cases hg : n.groups.lookup i with
  | none => exact Nat.zero_le _
  | some g =>
    obtain ⟨d, _, hok⟩ := h.group hg
    show g.done ≤ _
    unfold Group.done
    split
    · rename_i hbusy
      exact (hok.busy hbusy).1
    · exact hok.applied

theorem Node.done_insert (n : Node) (i : Nat) (g : Group) (db : Db) (j : Nat) :
    ({ n with db := db, groups := n.groups.insert i g } : Node).done j =
      if j = i then g.done else n.done j := by
  unfold Node.done
  by_cases hj : j = i
  · rw [if_pos hj, hj, AList.lookup_insert]
    rfl
  · rw [if_neg hj, AList.lookup_insert_ne hj]

theorem Group.appliedIndex_applyCommand (g : Group) (i : Nat) (db : Db) (cmd : Command) :
    (g.applyCommand i db cmd).2.appliedIndex = g.appliedIndex := by
  rcases g.applyCommand_spec i db cmd with ⟨hsame, _⟩ | ⟨c, x, _, _, _, _, hcut, _⟩
  · rw [hsame]
  · rw [hcut]

theorem Node.done_applyBegin (hg : n.groups.lookup i = some g) (cmd : Command) (j : Nat) :
    (n.applyBegin i cmd).done j = if j = i then g.appliedIndex + 1 else n.done j := by
  unfold Node.applyBegin
  rw [hg]
  rw [n.done_insert]
  congr 1
  show (g.applyCommand i n.db cmd).2.appliedIndex + 1 = _
  rw [g.appliedIndex_applyCommand]

theorem Node.raw_applyBegin (hg : n.groups.lookup i = some g) (cmd : Command) (key : Key) :
    (n.applyBegin i cmd).db.pairs.raw key = cmd.raw key (n.db.pairs.raw key) := by
  unfold Node.applyBegin
  rw [hg]
  cases cmd with
  | put k v =>
    show update n.db.pairs.raw k (some v) key = if k = key then some v else _
    rw [update_apply]
    simp only [eq_comm]
  | delete k =>
    show update n.db.pairs.raw k none key = if k = key then none else _
    rw [update_apply]
    simp only [eq_comm]
  | split c x =>
    show (g.applySplit i n.db c x).1.pairs.raw key = _
    unfold Group.applySplit
    split
    · rfl
    · split <;> rfl
  | noop | txn _ | tsTick => rfl

theorem Node.pairs_applyEnd (n : Node) (i : Nat) : (n.applyEnd i).db.pairs = n.db.pairs := by
  unfold Node.applyEnd
  cases n.groups.lookup i with
  | none => rfl
  | some g =>
    cases hspawn : g.spawning with
    | none =>
      dsimp only
      rw [hspawn]
    | some e =>
      dsimp only
      rw [hspawn]
      exact congrArg Db.pairs (n.ensureGroup_db e)

theorem NodeOk.done_applyEnd {birth : Nat → Option RangeDesc} {log : Nat → List Command}
    (h : NodeOk birth log n) (hlogs : SplitsOk birth log) (hg : n.groups.lookup i = some g)
    (hbusy : g.applying = true) (j : Nat) : (n.applyEnd i).done j = n.done j := by
  have hself : g.next.done = n.done i := by
    rw [done_of_lookup hg]
    unfold Group.done
    rw [hbusy]
    rfl
  unfold Node.applyEnd
  rw [hg]
  dsimp only
  cases hspawn : g.spawning with
  | none =>
    refine (n.done_insert i g.next _ j).trans ?_
    split
    · rename_i hj
      rw [hself, hj]
    · rfl
  | some e =>
    refine ((n.ensureGroup e).done_insert i g.next _ j).trans ?_
    split
    · rename_i hj
      rw [hself, hj]
    · -- the child has applied nothing yet
      obtain ⟨d, _, hok⟩ := h.group hg
      obtain ⟨_, _, _, _, _, _, hsplit⟩ := hok.child hspawn
      have hnone := h.not_hosted hlogs hg hsplit le_rfl
      have hunmarked : n.db.appliedKey e.id = none := by
        by_contra hc
        exact h.marker hc hnone
      unfold Node.done
      rw [n.lookup_ensureGroup]
      by_cases hje : e.id = j
      · rw [if_pos hje, ← hje, hnone]
        show ((n.db.appliedKey e.id).getD 0) = 0
        rw [hunmarked]
        rfl
      · rw [if_neg hje, or_none]

end

/-! ## Every node applies the writes of a key in order. -/

structure WritesOk (s : Cluster) : Prop where
  order : ∀ {key p q j i}, p < q → Wrote s.history key p j → Wrote s.history key q i →
    j = i ∨ HandedOn s.log j (rank s.history j p) i
  value : ∀ k key, ∃ m, m ≤ s.history.length ∧
    (s.nodes k).db.pairs.raw key = rawAfter key (s.history.take m) ∧
    ∀ p i, Wrote s.history key p i → (rank s.history i p < (s.nodes k).done i ↔ p < m)

section

variable {s : Cluster}

variable {i p j : Nat} {key : Key}

theorem Wrote.lt {history : List (Nat × Command)} (h : Wrote history key p i) :
    p < history.length := by
  obtain ⟨cmd, hp, _⟩ := h
  exact (getElem?_eq_some_iff.mp hp).1

theorem Wrote.of_concat {history : List (Nat × Command)} {cmd : Command}
    (h : Wrote (history ++ [(i, cmd)]) key p j) :
    Wrote history key p j ∨ (p = history.length ∧ j = i ∧ cmd.rawKey? = some key) := by
  obtain ⟨cmd', hp, hkey⟩ := h
  rcases getElem?_concat_cases hp with hp | ⟨hlen, heq⟩
  · exact .inl ⟨cmd', hp, hkey⟩
  · cases heq
    exact .inr ⟨hlen, rfl, hkey⟩

theorem WritesOk.push (h : WritesOk s) (hnode : ∀ k, NodeOk s.birth s.log (s.nodes k))
    {cmd : Command} (hnew : ∀ {key p j}, cmd.rawKey? = some key → Wrote s.history key p j →
      j = i ∨ HandedOn s.log j (rank s.history j p) i) :
    WritesOk { s with history := s.history ++ [(i, cmd)] } := by
  have hgrow : ∀ j, s.log j <+: Cluster.log { s with history := s.history ++ [(i, cmd)] } j := by
    intro j
    rw [s.log_push]
    exact isPrefix_grow s.log i cmd j
  have hrank : ∀ {key p j}, Wrote s.history key p j →
      rank (s.history ++ [(i, cmd)]) j p = rank s.history j p := fun hw =>
    rank_append (Nat.le_of_lt hw.lt) _ _
  refine ⟨fun {key p q j i'} hpq hp hq => ?_, fun k key => ?_⟩
  · rcases Wrote.of_concat hp with hpold | ⟨rfl, _, _⟩
    · rw [hrank hpold]
      have hold : j = i' ∨ HandedOn s.log j (rank s.history j p) i' := by
        rcases Wrote.of_concat hq with hqold | ⟨_, rfl, hkey⟩
        · exact h.order hpq hpold hqold
        · exact hnew hkey hpold
      exact hold.imp id (.mono hgrow)
    · have := hq.lt
      rw [length_append, length_singleton] at this
      omega
  · obtain ⟨m, hm, hraw, hdone⟩ := h.value k key
    refine ⟨m, ?_, ?_, fun p j hp => ?_⟩
    · rw [length_append]
      omega
    · rw [take_append_of_le_length hm]
      exact hraw
    · rcases Wrote.of_concat hp with hp | ⟨rfl, rfl, _⟩
      · rw [hrank hp]
        exact hdone p j hp
      · -- no node has applied the new entry
        have hle := (hnode k).done_le j
        have hlen : rank (s.history ++ [(j, cmd)]) j s.history.length = (s.log j).length := by
          rw [rank_append le_rfl, rank_length]
          rfl
        show rank (s.history ++ [(j, cmd)]) j s.history.length < (s.nodes k).done j ↔ _
        rw [hlen]
        constructor <;> intro _ <;> omega

theorem WritesOk.setNode (h : WritesOk s) {k : Nat} {n : Node}
    (hvalue : ∀ key, ∃ m, m ≤ s.history.length ∧
      n.db.pairs.raw key = rawAfter key (s.history.take m) ∧
      ∀ p i, Wrote s.history key p i → (rank s.history i p < n.done i ↔ p < m)) :
    WritesOk { s with nodes := update s.nodes k n } := by
  refine ⟨h.order, fun k' key => ?_⟩
  show ∃ m, m ≤ s.history.length ∧
    (update s.nodes k n k').db.pairs.raw key = rawAfter key (s.history.take m) ∧
    ∀ p i, Wrote s.history key p i → (rank s.history i p < (update s.nodes k n k').done i ↔ p < m)
  by_cases hk : k' = k
  · rw [hk, update_self]
    exact hvalue key
  · rw [update_of_ne hk]
    exact h.value k' key

theorem WritesOk.earlier (h : WritesOk s) (hranges : RangesOk s) {k : Nat} {g : Group}
    (hg : (s.nodes k).groups.lookup i = some g) {q : Nat} (hpq : p < q)
    (hp : Wrote s.history key p j) (hq : Wrote s.history key q i)
    (hnext : rank s.history i q ≤ g.appliedIndex) :
    rank s.history j p < (s.nodes k).appliedTo j := by
  rcases h.order hpq hp hq with rfl | ⟨a, c, x, ha, hlt, hdesc⟩
  · obtain ⟨cmd, hcmd, _⟩ := hp
    rw [appliedTo_of_lookup hg]
    exact (rank_lt hcmd hpq).trans_le hnext
  · obtain ⟨gj, hgj, hdone⟩ := (hranges.node k).ancestor hranges.logs ha hdesc (by rw [hg]; simp)
    rw [appliedTo_of_lookup hgj]
    omega

theorem WritesOk.applyBegin (h : WritesOk s) (hranges : RangesOk s) {k i : Nat} {g : Group}
    {cmd : Command} (hg : (s.nodes k).groups.lookup i = some g) (hidle : g.applying = false)
    (hentry : (s.log i)[g.appliedIndex]? = some cmd) :
    WritesOk { s with nodes := update s.nodes k ((s.nodes k).applyBegin i cmd) } := by
  obtain ⟨q, hq, hrank⟩ : ∃ q, s.history[q]? = some (i, cmd) ∧
      rank s.history i q = g.appliedIndex := exists_rank hentry
  have hdone : (s.nodes k).done i = g.appliedIndex := by
    rw [done_of_lookup hg]
    unfold Group.done
    rw [hidle]
    rfl
  apply h.setNode
  intro key
  obtain ⟨m, hm, hraw, hupto⟩ := h.value k key
  by_cases hkey : cmd.rawKey? = some key
  · have hwrote : Wrote s.history key q i := ⟨cmd, hq, hkey⟩
    refine ⟨q + 1, hwrote.lt, ?_, fun p j hp => ?_⟩
    · rw [raw_applyBegin hg, rawAfter_take_succ hq]
      exact Command.raw_eq hkey _ _
    · rw [done_applyBegin hg]
      rcases Nat.lt_trichotomy p q with hlt | rfl | hgt
      · -- earlier writes are applied
        have hold := h.earlier hranges hg hlt hp hwrote (Nat.le_of_eq hrank)
        have hle := (s.nodes k).appliedTo_le_done j
        constructor
        · intro _
          omega
        · intro _
          split
          · rename_i hji
            rw [hji] at hold hle
            rw [hji]
            omega
          · omega
      · obtain ⟨cmd', hcmd', _⟩ := hp
        rw [hq] at hcmd'
        cases hcmd'
        rw [if_pos rfl, hrank]
        constructor <;> intro _ <;> omega
      · -- later ones are not
        constructor
        · intro hlt
          exfalso
          split at hlt
          · rename_i hji
            rw [hji] at hlt
            have := rank_lt hq hgt
            omega
          · have hpm := (hupto p j hp).mp hlt
            have := (hupto q i hwrote).mpr (hgt.trans hpm)
            omega
        · intro hlt
          omega
  · refine ⟨m, hm, ?_, fun p j hp => ?_⟩
    · rw [raw_applyBegin hg, Command.raw_of_ne hkey]
      exact hraw
    · rw [done_applyBegin hg, ← hupto p j hp]
      split
      · rename_i hji
        rw [hji] at hp ⊢
        -- the entry itself is no write of this key
        have hne : rank s.history i p ≠ g.appliedIndex := by
          intro heq
          obtain ⟨cmd', hcmd', hkey'⟩ := hp
          obtain rfl := rank_inj hcmd' hq (heq.trans hrank.symm)
          rw [hq] at hcmd'
          cases hcmd'
          exact hkey hkey'
        rw [hdone]
        constructor <;> intro _ <;> omega
      · rfl

theorem RangesOk.handed_on (h : RangesOk s) (hkeys : KeysOk s.birth s.log)
    (hline : Lineage s.birth s.log) {d : RangeDesc} (hd : s.birth i = some d)
    (hin : (rangeAfter d (s.log i)).Contains key) (hp : Wrote s.history key p j) :
    j = i ∨ HandedOn s.log j (rank s.history j p) i := by
  obtain ⟨cmd, hcmd, hkey⟩ := hp
  have hentry : (s.log j)[rank s.history j p]? = some cmd := logOf_rank hcmd
  have hborn : s.birth j ≠ none := by
    apply h.logs.known
    intro hnil
    rw [hnil] at hentry
    cases hentry
  obtain ⟨e, he⟩ := ne_none_iff_exists'.mp hborn
  have hhad := hkeys j _ e cmd key he hentry (Command.key?_of_rawKey? hkey)
  by_cases hji : j = i
  · exact .inl hji
  · right
    have hlost : ¬ (rangeAfter e (s.log j)).Contains key := fun hin' =>
      hji (h.logs.apart he hd hin' hin)
    obtain ⟨a, c, x, f, hle, ha, hf, hchild⟩ := h.logs.handed he hhad hlost
    have hne : rank s.history j p ≠ a := by
      rintro heq
      rw [heq, ha] at hentry
      cases hentry
      cases hkey
    exact ⟨a, c, x, ha, by omega, hline.owner h.logs hd hin hf hchild⟩

/-- Orderly events keep the writes of a key in one order. -/
theorem WritesOk.step {s' : Cluster} (h : WritesOk s) (hranges : RangesOk s)
    (hkeys : KeysOk s.birth s.log) (hline : Lineage s.birth s.log) {e : Event}
    (horder : orderly s e = true) (hmove : Moves s e s') : WritesOk s' := by
  cases hmove with
  | route _ _ | allocate _ => exact ⟨h.order, h.value⟩
  | @append i r cmd hr haccept =>
    apply h.push hranges.node
    intro key p j hkey hp
    obtain ⟨d, hd, _⟩ := hranges.routed r (mem_of_getElem? hr)
    have hin := hranges.contains_of_orderly hr haccept horder hd (Command.key?_of_rawKey? hkey)
    exact hranges.handed_on hkeys hline hd hin hp
  | appendSplit hp | lead hg => exact h.push hranges.node nofun
  | applyBegin hg hidle hentry => exact h.applyBegin hranges hg hidle hentry
  | @applyEnd node group g hg hbusy =>
    apply h.setNode
    intro key
    obtain ⟨m, hm, hraw, hupto⟩ := h.value node key
    refine ⟨m, hm, ?_, fun p i hp => ?_⟩
    · rw [pairs_applyEnd]
      exact hraw
    · rw [(hranges.node node).done_applyEnd hranges.logs hg hbusy]
      exact hupto p i hp

end

theorem WritesOk.boot : WritesOk {} := by
  refine ⟨fun _ hp => absurd hp.lt (Nat.not_lt_zero _), fun k key => ⟨0, Nat.le_refl 0, rfl, ?_⟩⟩
  intro p i hp
  exact absurd hp.lt (Nat.not_lt_zero _)

end Flotilla.Server
