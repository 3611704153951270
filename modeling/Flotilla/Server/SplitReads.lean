/-
  Server.SplitReads — `GET` while ranges are split.

  `Handle` on `GET` takes three steps on one node: it routes the key to a group,
  waits for the read barrier of that group, and reads the database.  Each step
  interleaves with everything else in the cluster.  Consensus and the barrier
  are taken for granted: a read index covers every entry of the group's log that
  was committed when it was taken.

  `ack` is the answer of `ProposeAndWait`, when the proposing node has applied the
  entry; `getRoute`, `getBarrier` and `getRead` are `RouteToGroup`,
  `LinearizableReadBarrier` up to the read index, and `db_->Get` once the node has
  applied that much.
-/
import Flotilla.Server.WriteOrder

namespace Flotilla.Server

open Node Interleaving
open Flotilla.Txn (Key)
open Flotilla.Interleaving (rank)

/-! ## The machine. -/

/-- A `GET` and how far it has come. -/
structure Get where
  node : Nat
  key : Key
  group : Nat
  /-- `applied_index_` of the group on that node when the key was routed. -/
  seen : Nat
  /-- The entries acknowledged by then, as positions of the history. -/
  past : List Nat
  readIndex : Option Nat := none
  result : Option (Option Bytes) := none

structure Serving where
  cluster : Cluster := {}
  /-- The entries acknowledged to their clients, as positions of the history. -/
  acked : List Nat := []
  /-- How many entries of each log some node has begun to apply. -/
  committed : Nat → Nat := fun _ => 0
  gets : List Get := []

inductive ServingEvent where
  | cluster (event : Event)
  | ack (node position : Nat)
  | getRoute (node : Nat) (key : Key)
  | getBarrier (get readIndex : Nat)
  | getRead (get : Nat)

namespace Serving

/-- An entry that a node begins to apply is committed. -/
def commits (s : Serving) : Event → Nat → Nat
  | .applyBegin node group =>
      Function.update s.committed group
        (max (s.committed group) ((s.cluster.nodes node).appliedTo group + 1))
  | _ => s.committed

def step (s : Serving) : ServingEvent → Option Serving
  | .cluster event =>
      (s.cluster.step event).map fun c => { s with cluster := c, committed := s.commits event }
  | .ack node position =>
      match s.cluster.history[position]? with
      | some (group, _) =>
          if rank s.cluster.history group position < (s.cluster.nodes node).appliedTo group then
            some { s with acked := position :: s.acked }
          else none
      | none => none
  | .getRoute node key =>
      ((s.cluster.nodes node).routeToGroup key).map fun group =>
        let seen := (s.cluster.nodes node).appliedTo group
        { s with gets := s.gets ++ [⟨node, key, group, seen, s.acked, none, none⟩] }
  | .getBarrier i readIndex =>
      match s.gets[i]? with
      | some g =>
          if g.readIndex.isNone ∧ s.committed g.group ≤ readIndex ∧
              readIndex ≤ (s.cluster.log g.group).length then
            some { s with gets := s.gets.set i { g with readIndex := some readIndex } }
          else none
      | none => none
  | .getRead i =>
      match s.gets[i]? with
      | some g =>
          match g.readIndex with
          | some readIndex =>
              if g.result.isNone ∧ readIndex ≤ (s.cluster.nodes g.node).appliedTo g.group then
                let value := (s.cluster.nodes g.node).db.pairs.raw g.key
                some { s with gets := s.gets.set i { g with result := some value } }
              else none
          | none => none
      | none => none

/-- Writes are appended in order, and no split at or below the key of a `GET` stands between what
its node had applied when the key was routed and the read index of the barrier. -/
def steady (s : Serving) : ServingEvent → Bool
  | .cluster event => orderly s.cluster event
  | .getBarrier i readIndex =>
      match s.gets[i]? with
      | some g =>
          (((s.cluster.log g.group).take readIndex).drop g.seen).all fun entry =>
            match entry with
            | .split _ x => !decide (x ≤ g.key)
            | _ => true
      | none => true
  | _ => true

end Serving

/-! ## What a later cluster keeps. -/

structure Later (c c' : Cluster) : Prop where
  history : c.history <+: c'.history
  birth : ∀ {i d}, c.birth i = some d → c'.birth i = some d
  hosted : ∀ {k i}, (c.nodes k).groups.lookup i ≠ none → (c'.nodes k).groups.lookup i ≠ none
  applied : ∀ k i, (c.nodes k).appliedTo i ≤ (c'.nodes k).appliedTo i

section

variable {n : Node} {i : Nat}

theorem Node.lookup_applyBegin_ne_none (cmd : Command) {j : Nat} (hj : n.groups.lookup j ≠ none) :
    (n.applyBegin i cmd).groups.lookup j ≠ none := by
  unfold Node.applyBegin
  split
  · exact lookup_insert_ne_none _ hj
  · exact hj

theorem Node.lookup_applyEnd_ne_none {j : Nat} (hj : n.groups.lookup j ≠ none) :
    (n.applyEnd i).groups.lookup j ≠ none := by
  unfold Node.applyEnd
  split
  · rename_i g hg
    apply lookup_insert_ne_none
    split
    · obtain ⟨gj, hgj⟩ := ne_none_iff_exists'.mp hj
      rw [lookup_ensureGroup_of_some hgj]
      simp
    · exact hj
  · exact hj

theorem Node.appliedTo_applyBegin (n : Node) (i : Nat) (cmd : Command) (j : Nat) :
    (n.applyBegin i cmd).appliedTo j = n.appliedTo j := by
  unfold Node.applyBegin
  split
  · rename_i g hg
    unfold appliedTo
    by_cases hj : j = i
    · rw [hj, hg, AList.lookup_insert]
      exact g.appliedIndex_applyCommand i n.db cmd
    · rw [AList.lookup_insert_ne hj]
  · rfl

theorem Node.appliedTo_applyEnd_le (n : Node) (i j : Nat) :
    n.appliedTo j ≤ (n.applyEnd i).appliedTo j := by
  unfold Node.applyEnd
  split
  · rename_i g hg
    by_cases hj : j = i
    · unfold appliedTo
      rw [hj, hg, AList.lookup_insert]
      exact Nat.le_succ _
    · unfold appliedTo
      rw [AList.lookup_insert_ne hj]
      cases hgj : n.groups.lookup j with
      | none => exact Nat.zero_le _
      | some gj =>
        split
        · rw [lookup_ensureGroup_of_some hgj]
        · rw [hgj]
  · exact le_rfl

end

theorem Later.of_moves {c c' : Cluster} (h : RangesOk c) {e : Event} (hfresh : freshChild c e = true)
    (hmove : Moves c e c') : Later c c' := by
  have hset : ∀ {k : Nat} {n : Node},
      (∀ i, (c.nodes k).groups.lookup i ≠ none → n.groups.lookup i ≠ none) →
      (∀ i, (c.nodes k).appliedTo i ≤ n.appliedTo i) →
      Later c { c with nodes := update c.nodes k n } := by
    intro k n hhosted happlied
    refine ⟨prefix_refl _, id, fun {k' i} hi => ?_, fun k' i => ?_⟩
    · show (update c.nodes k n k').groups.lookup i ≠ none
      by_cases hk : k' = k
      · rw [hk, update_self]
        exact hhosted i (hk ▸ hi)
      · rw [update_of_ne hk]
        exact hi
    · show _ ≤ (update c.nodes k n k').appliedTo i
      by_cases hk : k' = k
      · rw [hk, update_self]
        exact happlied i
      · rw [update_of_ne hk]
  cases hmove with
  | route _ _ | allocate _ => exact ⟨prefix_refl _, id, id, fun _ _ => le_rfl⟩
  | append _ haccept =>
    refine ⟨prefix_append _ _, ?_, id, fun _ _ => le_rfl⟩
    rw [Cluster.birth_push_of_not_split (Command.not_split_of_accepted haccept)]
    exact id
  | lead _ =>
    refine ⟨prefix_append _ _, ?_, id, fun _ _ => le_rfl⟩
    rw [Cluster.birth_push_of_not_split (fun c x heq => by cases heq)]
    exact id
  | @appendSplit i p hp =>
    obtain ⟨hroot, hunused⟩ := fresh_of_freshChild hp hfresh
    obtain ⟨d, hd⟩ := ne_none_iff_exists'.mp (h.pending p (mem_of_getElem? hp))
    refine ⟨prefix_append _ _, ?_, id, fun _ _ => le_rfl⟩
    rw [Cluster.birth_push_split hd]
    exact h.logs.spawnBirth_keeps hroot hunused
  | applyBegin _ _ _ =>
    exact hset (fun _ => lookup_applyBegin_ne_none _)
      (fun i => Nat.le_of_eq (appliedTo_applyBegin _ _ _ i).symm)
  | applyEnd _ _ =>
    exact hset (fun _ => lookup_applyEnd_ne_none) (appliedTo_applyEnd_le _ _)

section

variable {c c' : Cluster}

theorem Later.log (h : Later c c') (i : Nat) : c.log i <+: c'.log i := by
  obtain ⟨rest, hrest⟩ := h.history
  show logOf c.history i <+: logOf c'.history i
  rw [← hrest, logOf_append]
  exact prefix_append _ _

theorem Later.rank (h : Later c c') {p : Nat} (hp : p < c.history.length) (i : Nat) :
    rank c'.history i p = rank c.history i p := by
  obtain ⟨rest, hrest⟩ := h.history
  rw [← hrest]
  exact rank_append (Nat.le_of_lt hp) _ _

theorem Later.getElem? (h : Later c c') {p : Nat} (hp : p < c.history.length) :
    c'.history[p]? = c.history[p]? := by
  obtain ⟨rest, hrest⟩ := h.history
  rw [← hrest, getElem?_append_left hp]

theorem Later.wrote (h : Later c c') {key : Key} {p j : Nat} (hp : p < c.history.length)
    (hw : Wrote c'.history key p j) : Wrote c.history key p j := by
  obtain ⟨cmd, hcmd, hkey⟩ := hw
  rw [h.getElem? hp] at hcmd
  exact ⟨cmd, hcmd, hkey⟩

theorem Later.take (h : Later c c') {m : Nat} (hm : m ≤ c.history.length) :
    c'.history.take m = c.history.take m := by
  obtain ⟨rest, hrest⟩ := h.history
  rw [← hrest, take_append_of_le_length hm]

end

/-! ## What a `GET` knows. -/

structure GetOk (c : Cluster) (acked : List Nat) (g : Get) : Prop where
  routed : ∃ d, c.birth g.group = some d ∧ g.seen ≤ (c.log g.group).length ∧
    (rangeAfter d ((c.log g.group).take g.seen)).Contains g.key
  hosted : (c.nodes g.node).groups.lookup g.group ≠ none
  past : ∀ p ∈ g.past, p ∈ acked
  covered : ∀ {r}, g.readIndex = some r → ∀ {p j}, p ∈ g.past → Wrote c.history g.key p j →
    (j = g.group ∧ rank c.history j p < r) ∨ HandedOn c.log j (rank c.history j p) g.group
  fresh : ∀ {v}, g.result = some v → ∃ m, m ≤ c.history.length ∧
    v = rawAfter g.key (c.history.take m) ∧
    ∀ {p j}, p ∈ g.past → Wrote c.history g.key p j → p < m

/-- An acknowledged entry is applied on some node. -/
def AckedOk (c : Cluster) (p : Nat) : Prop :=
  ∃ k i cmd, c.history[p]? = some (i, cmd) ∧ rank c.history i p < (c.nodes k).appliedTo i

structure Serving.Ok (s : Serving) : Prop where
  ranges : RangesOk s.cluster
  keys : KeysOk s.cluster.birth s.cluster.log
  lineage : Lineage s.cluster.birth s.cluster.log
  writes : WritesOk s.cluster
  committed : ∀ k i, (s.cluster.nodes k).done i ≤ s.committed i
  acked : ∀ p ∈ s.acked, AckedOk s.cluster p
  gets : ∀ g ∈ s.gets, GetOk s.cluster s.acked g

section

variable {c c' : Cluster} {acked : List Nat} {g : Get}

theorem AckedOk.lt {p : Nat} (h : AckedOk c p) : p < c.history.length := by
  obtain ⟨_, _, _, hp, _⟩ := h
  exact (getElem?_eq_some_iff.mp hp).1

theorem AckedOk.later {p : Nat} (h : AckedOk c p) (hlater : Later c c') : AckedOk c' p := by
  have hlt := h.lt
  obtain ⟨k, i, cmd, hp, hrank⟩ := h
  refine ⟨k, i, cmd, ?_, ?_⟩
  · rw [hlater.getElem? hlt]
    exact hp
  · rw [hlater.rank hlt]
    exact hrank.trans_le (hlater.applied k i)

theorem GetOk.later (h : GetOk c acked g) (hacked : ∀ p ∈ acked, AckedOk c p)
    (hlater : Later c c') : GetOk c' acked g := by
  have hlt : ∀ {p}, p ∈ g.past → p < c.history.length := fun hp => (hacked _ (h.past _ hp)).lt
  refine ⟨?_, hlater.hosted h.hosted, h.past, fun {r} hr {p j} hp hw => ?_, fun {v} hv => ?_⟩
  · obtain ⟨d, hd, hseen, hin⟩ := h.routed
    obtain ⟨rest, hrest⟩ := hlater.log g.group
    refine ⟨d, hlater.birth hd, hseen.trans (hlater.log g.group).length_le, ?_⟩
    rw [← hrest, take_append_of_le_length hseen]
    exact hin
  · rw [hlater.rank (hlt hp)]
    exact (h.covered hr hp (hlater.wrote (hlt hp) hw)).imp id (.mono hlater.log)
  · obtain ⟨m, hm, hval, hpast⟩ := h.fresh hv
    refine ⟨m, hm.trans hlater.history.length_le, ?_, fun {p j} hp hw => ?_⟩
    · rw [hlater.take hm]
      exact hval
    · exact hpast hp (hlater.wrote (hlt hp) hw)

theorem GetOk.ack (h : GetOk c acked g) (p : Nat) : GetOk c (p :: acked) g :=
  ⟨h.routed, h.hosted, fun q hq => mem_cons_of_mem p (h.past q hq), h.covered, h.fresh⟩

end

/-! ## Steps. -/

section

variable {s s' : Serving}

theorem Serving.Ok.covers (h : s.Ok) {g : Get} (hg : GetOk s.cluster s.acked g) {r : Nat}
    (hr : s.committed g.group ≤ r)
    (hsteady : ∀ (a c : Nat) (x : Key), g.seen ≤ a → a < r →
      (s.cluster.log g.group)[a]? = some (Command.split c x) → ¬ x ≤ g.key)
    {p j : Nat} (hp : p ∈ g.past) (hw : Wrote s.cluster.history g.key p j) :
    (j = g.group ∧ rank s.cluster.history j p < r) ∨
      HandedOn s.cluster.log j (rank s.cluster.history j p) g.group := by
  obtain ⟨d, hd, _, hin⟩ := hg.routed
  obtain ⟨cmd, hcmd, hkey⟩ := hw
  obtain ⟨k, j', cmd', hcmd', happlied⟩ := h.acked p (hg.past p hp)
  rw [hcmd] at hcmd'
  cases hcmd'
  have hentry : (s.cluster.log j)[rank s.cluster.history j p]? = some cmd := logOf_rank hcmd
  have hborn : s.cluster.birth j ≠ none := by
    apply h.ranges.logs.known
    intro hnil
    rw [hnil] at hentry
    cases hentry
  obtain ⟨e, he⟩ := ne_none_iff_exists'.mp hborn
  have hhad := h.keys j _ e cmd g.key he hentry (Command.key?_of_rawKey? hkey)
  have hcommitted : ∀ {i a}, a < (s.cluster.nodes k).appliedTo i → a < s.committed i :=
    fun ha => Nat.lt_of_lt_of_le ha ((appliedTo_le_done _ _).trans (h.committed k _))
  have hown : j = g.group → rank s.cluster.history j p < r := fun heq =>
    (hcommitted happlied).trans_le (heq ▸ hr)
  rcases h.lineage g.group j d e g.key hd he (contains_of_rangeAfter hin)
    (contains_of_rangeAfter hhad) with hdesc | hdesc
  · rcases Relation.ReflTransGen.cases_head hdesc with heq | ⟨c, ⟨a, x, ha⟩, hrest⟩
    · exact .inl ⟨heq.symm, hown heq.symm⟩
    · -- the key was handed on below the routed group, by a split that the barrier waits for
      exfalso
      obtain ⟨f, hf⟩ := ne_none_iff_exists'.mp (h.ranges.logs.born_of_descends hrest hborn)
      have hchild := h.ranges.logs.nested hrest hf he (contains_of_rangeAfter hhad)
      have hhosted : (s.cluster.nodes k).groups.lookup j ≠ none := by
        intro hnone
        unfold appliedTo at happlied
        rw [hnone] at happlied
        cases happlied
      obtain ⟨gi, hgi, hlt⟩ := (h.ranges.node k).ancestor h.ranges.logs ha hrest hhosted
      rw [← appliedTo_of_lookup hgi] at hlt
      refine hsteady a c x ?_ ((hcommitted hlt).trans_le hr) ha ?_
      · by_contra hbefore
        exact h.ranges.logs.given_away ha hf hchild hd (Nat.lt_of_not_le hbefore) hin
      · obtain ⟨_, _, _, _, rfl⟩ := h.ranges.logs.effective ha hf
        exact hchild.1
  · rcases Relation.ReflTransGen.cases_head hdesc with heq | ⟨c, ⟨a, x, ha⟩, hrest⟩
    · exact .inl ⟨heq, hown heq⟩
    · -- the key was handed on to the routed group, after the write
      right
      obtain ⟨f, hf⟩ := ne_none_iff_exists'.mp
        (h.ranges.logs.born_of_descends hrest (by rw [hd]; simp))
      have hchild := h.ranges.logs.nested hrest hf hd (contains_of_rangeAfter hin)
      have hle : rank s.cluster.history j p ≤ a := by
        by_contra hgt
        exact h.ranges.logs.given_away ha hf hchild he (Nat.lt_of_not_le hgt) hhad
      have hne : rank s.cluster.history j p ≠ a := by
        intro heq
        rw [heq, ha] at hentry
        cases hentry
        cases hkey
      exact ⟨a, c, x, ha, by omega, hrest⟩

theorem Serving.Ok.reads (h : s.Ok) {g : Get} (hg : GetOk s.cluster s.acked g) {r : Nat}
    (hr : g.readIndex = some r) (happlied : r ≤ (s.cluster.nodes g.node).appliedTo g.group) :
    ∃ m, m ≤ s.cluster.history.length ∧
      (s.cluster.nodes g.node).db.pairs.raw g.key =
        rawAfter g.key (s.cluster.history.take m) ∧
      ∀ {p j}, p ∈ g.past → Wrote s.cluster.history g.key p j → p < m := by
  obtain ⟨m, hm, hraw, hupto⟩ := h.writes.value g.node g.key
  refine ⟨m, hm, hraw, fun {p j} hp hw => (hupto p j hw).mp ?_⟩
  have hle := (s.cluster.nodes g.node).appliedTo_le_done j
  rcases hg.covered hr hp hw with ⟨rfl, hlt⟩ | ⟨a, c, x, ha, hlt, hdesc⟩
  · omega
  · obtain ⟨gj, hgj, hdone⟩ := (h.ranges.node g.node).ancestor h.ranges.logs ha hdesc hg.hosted
    rw [← appliedTo_of_lookup hgj] at hdone
    omega

theorem mem_set_cases {gets : List Get} {i : Nat} {g g' : Get} (h : g' ∈ gets.set i g) :
    g' = g ∨ g' ∈ gets := (List.mem_or_eq_of_mem_set h).symm

theorem Serving.Ok.getRoute (h : s.Ok) {node : Nat} {key : Key} {group : Nat}
    (hroute : (s.cluster.nodes node).routeToGroup key = some group) :
    GetOk s.cluster s.acked ⟨node, key, group, (s.cluster.nodes node).appliedTo group, s.acked,
      none, none⟩ := by
  have hsome : ((s.cluster.nodes node).groups.lookup group).isSome = true := by
    unfold Node.routeToGroup at hroute
    split at hroute
    · split at hroute
      · rename_i hsome
        cases hroute
        exact hsome
      · cases hroute
    · cases hroute
  obtain ⟨g, hg⟩ := isSome_iff_exists.mp hsome
  refine ⟨?_, by rw [hg]; simp, fun _ hp => hp, fun hr => (nomatch hr), fun hv => (nomatch hv)⟩
  show ∃ d, _ ∧ (s.cluster.nodes node).appliedTo group ≤ _ ∧ _
  rw [appliedTo_of_lookup hg]
  exact h.ranges.route hroute hg

theorem Serving.Ok.commits (h : s.Ok) {e : Event} {c : Cluster} (hmove : Moves s.cluster e c) :
    ∀ k i, (c.nodes k).done i ≤ s.commits e i := by
  have hset : ∀ {node : Nat} {n : Node} {committed : Nat → Nat},
      (∀ i, s.committed i ≤ committed i) → (∀ i, n.done i ≤ committed i) →
      ∀ k i, (update s.cluster.nodes node n k).done i ≤ committed i := by
    intro node n committed hmono hn k i
    by_cases hk : k = node
    · rw [hk, update_self]
      exact hn i
    · rw [update_of_ne hk]
      exact (h.committed k i).trans (hmono i)
  cases hmove with
  | route _ _ | allocate _ | append _ _ | appendSplit _ | lead _ => exact h.committed
  | @applyBegin node group g cmd hg hidle _ =>
    have hmono : ∀ i, s.committed i ≤ s.commits (.applyBegin node group) i := by
      intro i
      show s.committed i ≤ update s.committed group _ i
      by_cases hi : i = group
      · rw [hi, update_self]
        exact Nat.le_max_left _ _
      · rw [update_of_ne hi]
    refine hset hmono (fun i => ?_)
    rw [done_applyBegin hg]
    split
    · rename_i hi
      show _ ≤ update s.committed group _ i
      rw [hi, update_self, appliedTo_of_lookup hg]
      exact Nat.le_max_right _ _
    · exact (h.committed node i).trans (hmono i)
  | @applyEnd node group g hg hbusy =>
    refine hset (fun _ => le_rfl) (fun i => ?_)
    rw [(h.ranges.node node).done_applyEnd h.ranges.logs hg hbusy]
    exact h.committed node i

/-- A steady event keeps what is known of every `GET`. -/
theorem Serving.Ok.step (h : s.Ok) {e : ServingEvent} (hsteady : s.steady e = true)
    (hstep : Serving.step s e = some s') : s'.Ok := by
  cases e with
  | cluster event =>
    obtain ⟨c, hc, rfl⟩ := map_eq_some_iff.mp hstep
    have horder : orderly s.cluster event = true := hsteady
    have hfresh := freshChild_of_orderly horder
    have hmove := Cluster.moves_of_step hc
    have hlater := Later.of_moves h.ranges hfresh hmove
    exact ⟨h.ranges.step hfresh hmove, h.keys.step h.ranges horder hmove,
      h.lineage.step h.ranges hmove, h.writes.step h.ranges h.keys h.lineage horder hmove,
      h.commits hmove, fun p hp => (h.acked p hp).later hlater,
      fun g hg => (h.gets g hg).later h.acked hlater⟩
  | ack node position =>
    unfold Serving.step at hstep
    dsimp only at hstep
    split at hstep
    · rename_i group cmd hp
      split at hstep
      · rename_i hrank
        cases hstep
        refine ⟨h.ranges, h.keys, h.lineage, h.writes, h.committed, fun p hmem => ?_,
          fun g hg => (h.gets g hg).ack position⟩
        rcases mem_cons.mp hmem with rfl | hmem
        · exact ⟨node, group, cmd, hp, hrank⟩
        · exact h.acked p hmem
      · cases hstep
    · cases hstep
  | getRoute node key =>
    obtain ⟨group, hroute, rfl⟩ := map_eq_some_iff.mp hstep
    refine ⟨h.ranges, h.keys, h.lineage, h.writes, h.committed, h.acked, fun g hg => ?_⟩
    rcases mem_append.mp hg with hg | hg
    · exact h.gets g hg
    · rw [mem_singleton.mp hg]
      exact h.getRoute hroute
  | getBarrier i readIndex =>
    unfold Serving.step at hstep
    dsimp only at hstep
    split at hstep
    · rename_i g hg
      split at hstep
      · rename_i hr
        cases hstep
        refine ⟨h.ranges, h.keys, h.lineage, h.writes, h.committed, h.acked, fun g' hg' => ?_⟩
        rcases mem_set_cases hg' with rfl | hg'
        · have hok := h.gets g (mem_of_getElem? hg)
          refine ⟨hok.routed, hok.hosted, hok.past, fun {r} heq => ?_, hok.fresh⟩
          cases heq
          apply h.covers hok hr.2.1
          intro a c x hseen hlt ha hle
          unfold Serving.steady at hsteady
          dsimp only at hsteady
          rw [hg] at hsteady
          have hmem : Command.split c x ∈ ((s.cluster.log g.group).take readIndex).drop g.seen := by
            refine mem_of_getElem? (i := a - g.seen) ?_
            rw [getElem?_drop, Nat.add_sub_cancel' hseen, getElem?_take_of_lt hlt]
            exact ha
          have := all_eq_true.mp hsteady _ hmem
          simp [hle] at this
        · exact h.gets g' hg'
      · cases hstep
    · cases hstep
  | getRead i =>
    unfold Serving.step at hstep
    dsimp only at hstep
    split at hstep
    · rename_i g hg
      split at hstep
      · rename_i r hr
        split at hstep
        · rename_i happlied
          cases hstep
          refine ⟨h.ranges, h.keys, h.lineage, h.writes, h.committed, h.acked, fun g' hg' => ?_⟩
          rcases mem_set_cases hg' with rfl | hg'
          · have hok := h.gets g (mem_of_getElem? hg)
            refine ⟨hok.routed, hok.hosted, hok.past, hok.covered, fun {v} heq => ?_⟩
            cases heq
            exact h.reads hok hr happlied.2
          · exact h.gets g' hg'
        · cases hstep
      · cases hstep
    · cases hstep

end

theorem Serving.Ok.boot : Serving.Ok {} where
  ranges := .boot
  keys := by
    intro i a d cmd key _ ha
    cases ha
  lineage := .boot
  writes := .boot
  committed := by
    intro k i
    show Node.bootstrap.done i ≤ 0
    unfold Node.done
    rw [bootstrap_lookup]
    split
    · exact Nat.le_refl 0
    · exact Nat.le_refl 0
  acked := nofun
  gets := nofun

/-! ## Gets. -/

/-- **A `GET` is at least as new as the last write acknowledged before it**: along every run of any
number of nodes in which writes are appended in order and no owner changes between routing and
barrier, the result of every `GET` is the value of its key after a prefix of the history that
contains every write of the key acknowledged when the `GET` was routed. -/
theorem gets_see_acked_writes {es : List ServingEvent} {s : Serving}
    (hrun : Machine.run Serving.step {} es = some s)
    (hsteady : Machine.Along Serving.step (fun s e => s.steady e = true) {} es) {g : Get}
    (hg : g ∈ s.gets) {v : Option Bytes} (hv : g.result = some v) :
    ∃ m, v = rawAfter g.key (s.cluster.history.take m) ∧
      ∀ p ∈ g.past, ∀ i, Wrote s.cluster.history g.key p i → p < m := by
  have hok : s.Ok := Machine.run_induction (fun _ _ _ h hs hstep => h.step hs hstep) .boot
    hsteady hrun
  obtain ⟨m, _, hval, hpast⟩ := (hok.gets g hg).fresh hv
  exact ⟨m, hval, fun p hp i hw => hpast hp hw⟩

/-- A write of "z", a split at "m", and a `GET` of "z" through the child. -/
def getAfterSplit : List ServingEvent :=
  [.cluster (.route 0 [122]), .cluster (.append 0 (.put [122] [1])), .cluster (.applyBegin 0 1),
    .cluster (.applyEnd 0 1), .ack 0 0, .cluster (.route 0 [109]), .cluster (.allocate 1),
    .cluster (.appendSplit 0), .cluster (.applyBegin 0 1), .cluster (.applyEnd 0 1),
    .getRoute 0 [122], .getBarrier 0 0, .getRead 0]

theorem gets_see_acked_writes_split :
    ∃ s g m, Machine.run Serving.step {} getAfterSplit = some s ∧ g ∈ s.gets ∧ g.group = 2 ∧
      g.result = some (some [1]) ∧ some [1] = rawAfter g.key (s.cluster.history.take m) ∧ 0 < m := by
  have hsteady : Machine.Along Serving.step (fun s e => s.steady e = true) {} getAfterSplit := by
    decide +kernel
  obtain ⟨s, hrun, g, hg, hgroup, hresult, hpast, e, he, hraw⟩ : ∃ s,
      Machine.run Serving.step {} getAfterSplit = some s ∧ ∃ g, s.gets[0]? = some g ∧ g.group = 2 ∧
        g.result = some (some [1]) ∧ 0 ∈ g.past ∧
        ∃ e, s.cluster.history[0]? = some e ∧ e.2.rawKey? = some g.key := by decide +kernel
  obtain ⟨m, hval, hnew⟩ := gets_see_acked_writes hrun hsteady (mem_of_getElem? hg) hresult
  refine ⟨s, g, m, hrun, mem_of_getElem? hg, hgroup, hresult, hval, ?_⟩
  exact hnew 0 hpast e.1 ⟨e.2, he, hraw⟩

/-- Node 1 applies the split at "m", and a write of "z" through the child is acknowledged there.
Node 0 still routes "z" to group 1. -/
def getBeforeSplit : List ServingEvent :=
  [.cluster (.route 0 [122]), .cluster (.append 0 (.put [122] [1])), .cluster (.applyBegin 0 1),
    .cluster (.applyEnd 0 1), .cluster (.applyBegin 1 1), .cluster (.applyEnd 1 1), .ack 0 0,
    .cluster (.route 0 [109]), .cluster (.allocate 1), .cluster (.appendSplit 0),
    .cluster (.applyBegin 1 1), .cluster (.applyEnd 1 1), .cluster (.route 1 [122]),
    .cluster (.append 2 (.put [122] [2])), .cluster (.applyBegin 1 2), .cluster (.applyEnd 1 2),
    .ack 1 2, .getRoute 0 [122], .getBarrier 0 2, .cluster (.applyBegin 0 1),
    .cluster (.applyEnd 0 1), .getRead 0]

/-- The barrier waits for the split, not for the child's log. -/
theorem get_misses_acked_write :
    ∃ s g, Machine.run Serving.step {} getBeforeSplit = some s ∧ g ∈ s.gets ∧
      g.result = some (some [1]) ∧ ¬ ∃ m, some [1] = rawAfter g.key (s.cluster.history.take m) ∧
        ∀ p ∈ g.past, ∀ i, Wrote s.cluster.history g.key p i → p < m := by
  obtain ⟨s, hrun, g, hg, hresult, hpast, hlen, hlast, e, he, hraw⟩ : ∃ s,
      Machine.run Serving.step {} getBeforeSplit = some s ∧ ∃ g, s.gets[0]? = some g ∧
        g.result = some (some [1]) ∧ 2 ∈ g.past ∧ s.cluster.history.length = 3 ∧
        rawAfter g.key s.cluster.history = some [2] ∧
        ∃ e, s.cluster.history[2]? = some e ∧ e.2.rawKey? = some g.key := by decide +kernel
  refine ⟨s, g, hrun, mem_of_getElem? hg, hresult, ?_⟩
  rintro ⟨m, hval, hnew⟩
  have hm := hnew 2 hpast e.1 ⟨e.2, he, hraw⟩
  rw [take_of_length_le (by omega), hlast] at hval
  cases hval

end Flotilla.Server
