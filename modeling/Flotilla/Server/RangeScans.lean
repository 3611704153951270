/-
  Server.RangeScans — scans across the ranges of a node,
  `ScanAcrossRanges` and `TxnScanAcrossRanges` of `server/sharded_node.cc`.

  Both functions are one loop: they visit the ranges that meet the request in
  routing order, cut the request down to each range, and scan the database there
  or forward the rest to the leader of the range (`acrossRanges`).
  An empty start is the lowest key, an empty end is +infinity.
-/
import Flotilla.Server.Cluster
import Flotilla.Server.Groups
import Flotilla.Txn.Scans

namespace Flotilla.Server

open Flotilla.Txn (Key)
open Flotilla.Txn.Codec (DB InRange beyond)

/-! ## Requests. -/

structure ScanRequest where
  key : Key := []
  /-- `end_key`, exclusive; empty is unbounded -/
  endKey : Key := []
  /-- 0 is the default of the server -/
  limit : Nat := 0
  /-- `kRequestNoForward` -/
  noForward : Bool := false
  ts : UInt64 := 0

structure ScanResponse where
  status : Status := {}
  leaderAddr : Bytes := []
  kvs : List (Key × Bytes) := []
  /-- `lock_ts`, `lock_primary` and `lock_key` -/
  lock : Option (Txn.Codec.LockRecord × Key) := none

def kDefaultScanLimit : Nat := 1000

/-- The groups and the other nodes, as the loop asks about them. -/
structure Peers where
  isLeader : Nat → Bool
  /-- `LinearizableReadBarrier` -/
  readBarrier : Nat → Status
  /-- The client address of `LeaderId`, if the cluster knows it. -/
  leaderAddr : Nat → Option Bytes
  forwardScan : Bytes → ScanRequest → ScanResponse

def ScanResponse.fromStatus (s : Status) : ScanResponse := { status := s }

def Peers.notLeaderResponse (peers : Peers) (group : Nat) : ScanResponse :=
  { status := ⟨.notLeader, text "not the leader for this range"⟩
    leaderAddr := (peers.leaderAddr group).getD [] }

/-! ## The loop over the ranges. -/

/-- `starts_before_end && ends_after_start` -/
def RangeDesc.meets (d : RangeDesc) (start endKey : Key) : Bool :=
  decide ((endKey = [] ∨ d.start < endKey) ∧ (d.endKey = [] ∨ start < d.endKey))

namespace Node

def rangesIntersecting (n : Node) (start endKey : Key) : List RangeDesc :=
  n.routing.filterMap fun route => (n.range? route.2).filter (fun d => d.meets start endKey)

/-- `sub_end` -/
def subEnd (req : ScanRequest) (range : RangeDesc) : Key :=
  if req.endKey ≠ [] ∧ (range.endKey = [] ∨ req.endKey < range.endKey) then req.endKey
  else range.endKey

/-- The loop of both scans: `scanLocal` adds the rows of one sub-range, or ends the request. -/
def acrossRanges (n : Node) (peers : Peers) (req : ScanRequest) (limit : Nat)
    (scanLocal : Key → Key → List (Key × Bytes) → Except ScanResponse (List (Key × Bytes))) :
    List RangeDesc → List (Key × Bytes) → ScanResponse
  | [], kvs => { kvs := kvs }
  | range :: ranges, kvs =>
      if limit ≤ kvs.length then { kvs := kvs }
      else
        let subStart := max req.key range.start
        match n.groups.lookup range.id with
        | none => acrossRanges n peers req limit scanLocal ranges kvs
        | some _ =>
            if peers.isLeader range.id then
              let s := peers.readBarrier range.id
              if s.code = .notLeader then peers.notLeaderResponse range.id
              else if ¬ s.isOk then ScanResponse.fromStatus s
              else
                match scanLocal subStart (subEnd req range) kvs with
                | .error resp => resp
                | .ok kvs => acrossRanges n peers req limit scanLocal ranges kvs
            else if req.noForward then peers.notLeaderResponse range.id
            else
              match peers.leaderAddr range.id with
              | none => peers.notLeaderResponse range.id
              | some addr =>
                  let sub : ScanRequest :=
                    { req with
                      key := subStart, endKey := subEnd req range
                      limit := limit - kvs.length, noForward := true }
                  let subResp := peers.forwardScan addr sub
                  if ¬ subResp.status.isOk then subResp
                  else acrossRanges n peers req limit scanLocal ranges (kvs ++ subResp.kvs)

/-- The iterator loop of `ScanAcrossRanges`. -/
def scanLoop (endKey : Key) (limit : Nat) :
    List (Key × Bytes) → List (Key × Bytes) → List (Key × Bytes)
  | [], kvs => kvs
  | e :: rest, kvs =>
      if limit ≤ kvs.length then kvs
      else if beyond endKey e.1 then kvs
      else scanLoop endKey limit rest (if isReservedKey e.1 then kvs else kvs ++ [e])

def scanLocal (db : DB) (limit : Nat) (start endKey : Key) (kvs : List (Key × Bytes)) :
    Except ScanResponse (List (Key × Bytes)) :=
  -- `SeekToFirst` for the lowest key
  .ok (scanLoop endKey limit (if start = [] then db.entries else db.seek start) kvs)

def scanAcrossRanges (n : Node) (peers : Peers) (db : DB) (req : ScanRequest) : ScanResponse :=
  let limit := if req.limit = 0 then kDefaultScanLimit else req.limit
  n.acrossRanges peers req limit (scanLocal db limit) (n.rangesIntersecting req.key req.endKey) []

/-- `TxnScan` on a sub-range, and `FillLockInfo`. -/
def txnScanLocal (db : DB) (ts : UInt64) (limit : Nat) (start endKey : Key)
    (kvs : List (Key × Bytes)) : Except ScanResponse (List (Key × Bytes)) :=
  match Txn.Codec.txnScan db start endKey ts (limit - kvs.length) with
  | .error s => .error (ScanResponse.fromStatus s)
  | .ok result =>
      match result.blocked with
      | some lock =>
          .error { status := ⟨.conflict, text "blocked by lock"⟩, kvs := kvs, lock := some lock }
      | none => .ok (kvs ++ result.rows)

def txnScanAcrossRanges (n : Node) (peers : Peers) (db : DB) (req : ScanRequest) : ScanResponse :=
  let limit := if req.limit = 0 then kDefaultScanLimit else req.limit
  n.acrossRanges peers req limit (txnScanLocal db req.ts limit)
    (n.rangesIntersecting req.key req.endKey) []

/-! ## Cutting the request at the ranges. -/

/-- The ranges of the node cover every key once, each under the id of its group. -/
structure Tiled (n : Node) : Prop where
  tiling : Tiling n.range? n.routing
  ids : ∀ {i d}, n.range? i = some d → d.id = i

/-- The node leads all of its groups and passes their read barriers. -/
structure Leads (n : Node) (peers : Peers) : Prop where
  leader : ∀ {i d}, n.range? i = some d → peers.isLeader i = true
  barrier : ∀ {i d}, n.range? i = some d → (peers.readBarrier i).code = .ok

theorem inRange_sub (req : ScanRequest) (range : RangeDesc) (key : Key) :
    InRange (max req.key range.start) (subEnd req range) key ↔
      InRange req.key req.endKey key ∧ range.Contains key := by
  have hend : (subEnd req range = [] ∨ key < subEnd req range) ↔
      (req.endKey = [] ∨ key < req.endKey) ∧ (range.endKey = [] ∨ key < range.endKey) := by
    unfold subEnd
    by_cases hreq : req.endKey = []
    · simp [hreq]
    · by_cases hrange : range.endKey = []
      · simp [hreq, hrange]
      · by_cases hlt : req.endKey < range.endKey
        · simp only [hreq, hrange, hlt, ne_eq, not_false_eq_true, false_or, true_and, if_true]
          exact ⟨fun h => ⟨h, lt_trans h hlt⟩, fun h => h.1⟩
        · simp only [hreq, hrange, hlt, ne_eq, not_false_eq_true, false_or, and_false, if_false]
          exact ⟨fun h => ⟨lt_of_lt_of_le h (not_lt.mp hlt), h⟩, fun h => h.2⟩
  unfold InRange RangeDesc.Contains
  rw [hend, max_le_iff]
  tauto

section Tiled

variable {n : Node} {peers : Peers} (h : Tiled n)

include h

theorem mem_rangesIntersecting {start endKey : Key} {d : RangeDesc} :
    d ∈ n.rangesIntersecting start endKey ↔ n.range? d.id = some d ∧ d.meets start endKey = true := by
  unfold rangesIntersecting
  rw [mem_filterMap]
  constructor
  · rintro ⟨route, _, hd⟩
    obtain ⟨hsome, hmeets⟩ := filter_eq_some_iff.mp hd
    rw [h.ids hsome]
    exact ⟨hsome, hmeets⟩
  · rintro ⟨hsome, hmeets⟩
    refine ⟨(d.start, d.id), h.tiling.routes.mpr ⟨d, hsome, rfl⟩, ?_⟩
    exact filter_eq_some_iff.mpr ⟨hsome, hmeets⟩

theorem exists_range_of_inRange {start endKey key : Key} (hin : InRange start endKey key) :
    ∃ d ∈ n.rangesIntersecting start endKey, d.Contains key := by
  obtain ⟨i, d, hd, hcontains⟩ := h.tiling.cover key
  have hid := h.ids hd
  rw [← hid] at hd
  refine ⟨d, (mem_rangesIntersecting h).mpr ⟨hd, decide_eq_true ⟨?_, ?_⟩⟩, hcontains⟩
  · exact hin.2.imp id fun hlt => lt_of_le_of_lt hcontains.1 hlt
  · exact hcontains.2.imp id fun hlt => lt_of_le_of_lt hin.1 hlt

theorem rangesIntersecting_ordered (start endKey : Key) :
    (n.rangesIntersecting start endKey).Pairwise
      (fun d e => ∀ k k', d.Contains k → e.Contains k' → k < k') := by
  unfold rangesIntersecting
  rw [List.pairwise_filterMap]
  refine h.tiling.sorted.imp_of_mem ?_
  intro a b ha hb hlt d hd e he k k' hk hk'
  obtain ⟨hd, _⟩ := filter_eq_some_iff.mp hd
  obtain ⟨he, _⟩ := filter_eq_some_iff.mp he
  obtain ⟨d', hd', hstart⟩ := h.tiling.routes.mp ha
  obtain ⟨e', he', hstart'⟩ := h.tiling.routes.mp hb
  rw [hd] at hd'
  rw [he] at he'
  cases hd'
  cases he'
  have hlt : d.start < e.start := by
    rw [hstart, hstart']
    exact hlt
  by_contra hge
  -- otherwise the later key lies in the earlier range, too
  have hboth : d.Contains k' :=
    ⟨le_of_lt (lt_of_lt_of_le hlt hk'.1), hk.2.imp id fun hend => lt_of_le_of_lt (not_lt.mp hge) hend⟩
  have hsame := h.tiling.apart hd he hboth hk'
  rw [hsame, he] at hd
  cases hd
  exact lt_irrefl _ hlt

theorem acrossRanges_eq (hlead : Leads n peers) {req : ScanRequest} {limit : Nat}
    {scan : Key → Key → List (Key × Bytes) → Except ScanResponse (List (Key × Bytes))}
    {rows : List (Key × Bytes)} (hrows : rows.Pairwise (fun a b => a.1 < b.1))
    (hscan : ∀ d ∈ n.rangesIntersecting req.key req.endKey, ∀ kvs : List (Key × Bytes),
      kvs.length < limit →
      scan (max req.key d.start) (subEnd req d) kvs =
        .ok (kvs ++ (rows.filter (fun row => InRange (max req.key d.start) (subEnd req d) row.1)).take
          (limit - kvs.length))) :
    n.acrossRanges peers req limit scan (n.rangesIntersecting req.key req.endKey) [] =
      { kvs := (rows.filter (fun row => InRange req.key req.endKey row.1)).take limit } := by
  -- the loop takes the pieces one behind the other
  have hloop : ∀ (ranges : List RangeDesc),
      (∀ d ∈ ranges, d ∈ n.rangesIntersecting req.key req.endKey) → ∀ kvs : List (Key × Bytes),
      n.acrossRanges peers req limit scan ranges kvs =
        { kvs := kvs ++ (ranges.flatMap (fun d => rows.filter
          (fun row => InRange (max req.key d.start) (subEnd req d) row.1))).take
            (limit - kvs.length) } := by
    intro ranges hranges
    induction ranges with
    | nil =>
      intro kvs
      rw [List.flatMap_nil, take_nil, append_nil]
      rfl
    | cons d ranges ih =>
      intro kvs
      have hd := hranges d mem_cons_self
      obtain ⟨hown, _⟩ := (mem_rangesIntersecting h).mp hd
      obtain ⟨g, hg, _⟩ := map_eq_some_iff.mp hown
      have hbarrier := hlead.barrier hown
      unfold acrossRanges
      by_cases hfull : limit ≤ kvs.length
      · rw [if_pos hfull, Nat.sub_eq_zero_of_le hfull, take_zero, append_nil]
      · have hroom : kvs.length < limit := Nat.not_le.mp hfull
        rw [if_neg hfull]
        dsimp only
        rw [hg, if_pos (hlead.leader hown), if_neg (by rw [hbarrier]; decide),
          if_neg (by simp [Status.isOk, hbarrier]), hscan d hd kvs hroom]
        dsimp only
        rw [ih fun e he => hranges e (mem_cons_of_mem d he), flatMap_cons,
          append_assoc, take_append, length_append, length_take]
        congr 4
        omega
  rw [hloop _ (fun d hd => hd) [], nil_append, length_nil, Nat.sub_zero]
  -- the pieces are the rows of the request, in order
  congr 2
  apply SortedMap.eq_of_mem_iff
  · rw [List.pairwise_flatMap]
    refine ⟨fun d _ => hrows.filter _, ?_⟩
    refine (rangesIntersecting_ordered h req.key req.endKey).imp ?_
    intro d e hde a ha b hb
    have hain := (inRange_sub req d a.1).mp (of_decide_eq_true (mem_filter.mp ha).2)
    have hbin := (inRange_sub req e b.1).mp (of_decide_eq_true (mem_filter.mp hb).2)
    exact hde a.1 b.1 hain.2 hbin.2
  · exact hrows.filter _
  · intro row
    rw [mem_flatMap, mem_filter]
    constructor
    · rintro ⟨d, _, hrow⟩
      obtain ⟨hmem, hin⟩ := mem_filter.mp hrow
      exact ⟨hmem, decide_eq_true ((inRange_sub req d row.1).mp (of_decide_eq_true hin)).1⟩
    · rintro ⟨hmem, hin⟩
      obtain ⟨d, hd, hcontains⟩ := exists_range_of_inRange h (of_decide_eq_true hin)
      have hsub := (inRange_sub req d row.1).mpr ⟨of_decide_eq_true hin, hcontains⟩
      exact ⟨d, hd, mem_filter.mpr ⟨hmem, decide_eq_true hsub⟩⟩

end Tiled

/-! ## Raw scans. -/

theorem scanLoop_eq (endKey : Key) (limit : Nat) (es kvs : List (Key × Bytes)) :
    scanLoop endKey limit es kvs =
      kvs ++ ((es.takeWhile (fun e => !beyond endKey e.1)).filter
        (fun e => !isReservedKey e.1)).take (limit - kvs.length) := by
  induction es generalizing kvs with
  | nil => simp [scanLoop]
  | cons e es ih =>
    unfold scanLoop
    by_cases hfull : limit ≤ kvs.length
    · rw [if_pos hfull, Nat.sub_eq_zero_of_le hfull, take_zero, append_nil]
    · rw [if_neg hfull]
      cases hbeyond : beyond endKey e.1 with
      | true => simp [hbeyond]
      | false =>
        rw [if_neg Bool.false_ne_true, ih, takeWhile_cons_of_pos (by simp [hbeyond])]
        cases hreserved : isReservedKey e.1 with
        | true => simp [hreserved]
        | false =>
          rw [filter_cons_of_pos (by simp [hreserved]),
            show limit - kvs.length = limit - (kvs ++ [e]).length + 1 by
              rw [length_append, length_singleton]; omega,
            take_succ_cons]
          simp

theorem scanLocal_eq (db : DB) (limit : Nat) (start endKey : Key) (kvs : List (Key × Bytes)) :
    scanLocal db limit start endKey kvs =
      .ok (kvs ++ ((db.entries.filter (fun e => !isReservedKey e.1)).filter
        (fun e => InRange start endKey e.1)).take (limit - kvs.length)) := by
  have hwalk := Txn.Codec.rawVisits_eq db start endKey
  unfold Txn.Codec.rawVisits at hwalk
  unfold scanLocal
  rw [scanLoop_eq, hwalk, filter_filter, filter_filter]
  simp only [Bool.and_comm]

/-- **A scan across ranges is a flat scan**: the first `limit` pairs of the database with keys
that are not reserved and lie in the request, in key order, wherever the ranges are split. -/
theorem scanAcrossRanges_eq_flatScan (n : Node) (peers : Peers) (htiled : Tiled n)
    (hlead : Leads n peers) (db : DB) (req : ScanRequest) :
    n.scanAcrossRanges peers db req =
      { kvs := (db.entries.filter (fun e => InRange req.key req.endKey e.1 ∧
          isReservedKey e.1 = false)).take
            (if req.limit = 0 then kDefaultScanLimit else req.limit) } := by
  unfold scanAcrossRanges
  rw [acrossRanges_eq htiled hlead (db.sorted.filter (fun e => !isReservedKey e.1))
    (fun d _ kvs _ => scanLocal_eq db _ _ _ kvs), filter_filter]
  congr 3
  funext e
  rw [Bool.eq_iff_iff]
  simp

/-- Two ranges, split at "m". -/
def halves : Node where
  groups := ((∅ : AList (fun _ : Nat => Group)).insert 1 { range := ⟨1, [], text "m"⟩ }).insert 2
    { range := ⟨2, text "m", []⟩ }
  routing := [([], 1), (text "m", 2)]

theorem halves_range? {i : Nat} {d : RangeDesc} :
    halves.range? i = some d ↔ (i = 1 ∧ d = ⟨1, [], text "m"⟩) ∨ (i = 2 ∧ d = ⟨2, text "m", []⟩) := by
  unfold range? halves
  by_cases htwo : i = 2
  · rw [htwo, AList.lookup_insert]
    simp [eq_comm]
  · rw [AList.lookup_insert_ne htwo]
    by_cases hone : i = 1
    · rw [hone, AList.lookup_insert]
      simp [eq_comm]
    · rw [AList.lookup_insert_ne hone]
      simp [htwo, hone]

theorem halves_tiled : Tiled halves where
  ids := fun hd => by
    cases halves_range?.mp hd with
    | inl h | inr h => rw [h.1, h.2]
  tiling :=
    { cover := fun key => by
        by_cases hlt : key < text "m"
        · exact ⟨1, _, halves_range?.mpr (.inl ⟨rfl, rfl⟩), not_lt.mp (not_lt_nil key), .inr hlt⟩
        · exact ⟨2, _, halves_range?.mpr (.inr ⟨rfl, rfl⟩), not_lt.mp hlt, .inl rfl⟩
      apart := fun hd he hkey hkey' => by
        cases halves_range?.mp hd with
        | inl h =>
          cases halves_range?.mp he with
          | inl h' => rw [h.1, h'.1]
          | inr h' =>
            rw [h.2] at hkey
            rw [h'.2] at hkey'
            exact absurd hkey'.1 (not_le.mpr (hkey.2.resolve_left (by decide +kernel)))
        | inr h =>
          cases halves_range?.mp he with
          | inl h' =>
            rw [h.2] at hkey
            rw [h'.2] at hkey'
            exact absurd hkey.1 (not_le.mpr (hkey'.2.resolve_left (by decide +kernel)))
          | inr h' => rw [h.1, h'.1]
      start := fun hd => by
        cases halves_range?.mp hd with
        | inl h =>
          rw [h.2]
          decide +kernel
        | inr h =>
          rw [h.2]
          decide +kernel
      routes := fun {s i} => by
        show (s, i) ∈ [(([] : Key), 1), (text "m", 2)] ↔ _
        simp only [mem_cons, Prod.mk.injEq, not_mem_nil, or_false]
        constructor
        · rintro (h | h)
          · exact ⟨_, halves_range?.mpr (.inl ⟨h.2, rfl⟩), h.1.symm⟩
          · exact ⟨_, halves_range?.mpr (.inr ⟨h.2, rfl⟩), h.1.symm⟩
        · rintro ⟨d, hd, hs⟩
          cases halves_range?.mp hd with
          | inl h => exact .inl ⟨by rw [← hs, h.2], h.1⟩
          | inr h => exact .inr ⟨by rw [← hs, h.2], h.1⟩
      sorted := by
        show [(([] : Key), 1), (text "m", 2)].Pairwise _
        decide +kernel }

/-- A node that leads every group. -/
def leading : Peers where
  isLeader := fun _ => true
  readBarrier := fun _ => {}
  leaderAddr := fun _ => none
  forwardScan := fun _ _ => {}

/-- A scan over the split key: the limit is carried into the second range, and the reserved
pair is left out. -/
theorem scanAcrossRanges_eq_flatScan_halves :
    (halves.scanAcrossRanges leading
      ⟨[(text "!w", text "0"), (text "a", text "1"), (text "m", text "2"), (text "z", text "3")],
        by decide +kernel⟩ { limit := 2 }).kvs = [(text "a", text "1"), (text "m", text "2")] := by
  rw [scanAcrossRanges_eq_flatScan halves leading halves_tiled
    ⟨fun _ => rfl, fun _ => rfl⟩]
  decide +kernel

/-! ## Transactional scans. -/

theorem scanRows_sub {db : DB} (h : Txn.Codec.Readable db) (req : ScanRequest) (d : RangeDesc) :
    Txn.Codec.scanRows db (max req.key d.start) (subEnd req d) req.ts =
      (Txn.Codec.scanRows db req.key req.endKey req.ts).filter
        (fun row => InRange (max req.key d.start) (subEnd req d) row.1) := by
  apply SortedMap.eq_of_mem_iff (Txn.Codec.sorted_scanRows h.toFormed _ _ _)
    ((Txn.Codec.sorted_scanRows h.toFormed _ _ _).filter _)
  intro row
  rw [mem_filter, show row = (row.1, row.2) from rfl, Txn.Codec.mem_scanRows h,
    Txn.Codec.mem_scanRows h, decide_eq_true_iff]
  constructor
  · exact fun hrow => ⟨⟨((inRange_sub req d row.1).mp hrow.1).1, hrow.2⟩, hrow.1⟩
  · exact fun hrow => ⟨hrow.2, hrow.1.2⟩

theorem txnScanAcrossRanges_free {n : Node} {peers : Peers} (htiled : Tiled n)
    (hlead : Leads n peers) {db : DB} (h : Txn.Codec.Readable db) (req : ScanRequest)
    (hfree : ∀ k lock, InRange req.key req.endKey k → Txn.Codec.getLock db k = .ok (some lock) →
      ¬ lock.startTs ≤ req.ts)
    (hok : ∀ k s, InRange req.key req.endKey k → Txn.Codec.txnGet db k req.ts ≠ .error s) :
    n.txnScanAcrossRanges peers db req =
      { kvs := (Txn.Codec.scanRows db req.key req.endKey req.ts).take
          (if req.limit = 0 then kDefaultScanLimit else req.limit) } := by
  have hrows := Txn.Codec.sorted_scanRows h.toFormed req.key req.endKey req.ts
  have hall : ∀ row ∈ Txn.Codec.scanRows db req.key req.endKey req.ts,
      decide (InRange req.key req.endKey row.1) = true :=
    fun row hrow => decide_eq_true ((Txn.Codec.mem_scanRows h).mp hrow).1
  unfold txnScanAcrossRanges
  rw [acrossRanges_eq htiled hlead hrows, filter_eq_self.mpr hall]
  intro d _ kvs _
  have hsub := fun k => inRange_sub req d k
  unfold txnScanLocal
  rw [Txn.Codec.txnScan_ok h, scanRows_sub h]
  · exact fun k lock hin => hfree k lock ((hsub k).mp hin).1
  · exact fun k s hin hget => absurd hget (hok k s ((hsub k).mp hin).1)

end Node

end Flotilla.Server
