/-
  Client.TxnScans — `Txn::Scan` of `client/txn_client.cc`.

  The scan sends its limit to the server, which cuts the rows of the snapshot off
  there, and overlays the buffered writes on what comes back.  Rows that the
  buffer deletes are not made up for, and rows that it adds come on top.
-/
import Flotilla.Client.TxnBuffer
import Flotilla.Server.RangeScans

namespace Flotilla.Client

open Flotilla.Server (ScanRequest ScanResponse Node Peers)
open Flotilla.Txn.Codec (DB InRange Readable getLock txnGet scanRows)

/-! ## The scan. -/

structure Txn where
  startTs : UInt64 := 0
  active : Bool := false
  mutations : Buffer := .empty

/-- `client_->Call` and `ResolveLock` of each attempt. -/
structure Remote where
  call : Nat → ScanRequest → Except Status ScanResponse
  resolveLock : Nat → ScanResponse → Status

/-- The attempts that are left. -/
def scanAttempts (mutations : Buffer) (remote : Remote) (req : ScanRequest) :
    Nat → Status × List (Bytes × Bytes)
  | 0 => (⟨.timeout, text "lock never resolved"⟩, [])
  | left + 1 =>
      let attempt := 20 - (left + 1)
      match remote.call attempt req with
      | .error s => (s, [])
      | .ok resp =>
          if resp.status.isConflict then
            let s := remote.resolveLock attempt resp
            -- the holder may still be live: wait, and ask again
            if s.isConflict then scanAttempts mutations remote req left
            else if ¬ s.isOk then (s, [])
            else scanAttempts mutations remote req left
          else if ¬ resp.status.isOk then (resp.status, [])
          else ({}, overlay req.key req.endKey resp.kvs mutations)

def Txn.scan (t : Txn) (remote : Remote) (start endKey : Bytes) (limit : Nat) :
    Status × List (Bytes × Bytes) :=
  if ¬ t.active then (⟨.invalidArgument, text "transaction not begun"⟩, [])
  else
    let req : ScanRequest := { key := start, endKey := endKey, limit := limit, ts := t.startTs }
    scanAttempts t.mutations remote req 20

/-- A node that answers every attempt. -/
def served (n : Node) (peers : Peers) (db : DB) : Remote where
  call := fun _ req => .ok (n.txnScanAcrossRanges peers db req)
  resolveLock := fun _ _ => {}

/-! ## Counting rows. -/

/-- The rows of the server that no buffered write deletes. -/
def kept (buffer : Buffer) (sent : List (Bytes × Bytes)) : List (Bytes × Bytes) :=
  sent.filter (fun row => buffer.get? row.1 ≠ some .delete)

/-- The buffered puts of other keys in the range. -/
def added (buffer : Buffer) (start endKey : Bytes) (sent : List (Bytes × Bytes)) :
    List (Bytes × Mutation) :=
  buffer.entries.filter
    (fun m => InRange start endKey m.1 ∧ m.2 ≠ .delete ∧ ∀ row ∈ sent, row.1 ≠ m.1)

/-- The rows that are kept and added are no more than the limit; and where the server has cut
off a row that is not buffered, they fill the limit and come before it. -/
structure LimitFits (buffer : Buffer) (start endKey : Bytes) (limit : Nat)
    (snapshot : List (Bytes × Bytes)) : Prop where
  fits : (kept buffer (snapshot.take limit)).length +
    (added buffer start endKey (snapshot.take limit)).length ≤ limit
  full : ∀ row ∈ snapshot.drop limit, buffer.get? row.1 = none →
    (kept buffer (snapshot.take limit)).length +
      (added buffer start endKey (snapshot.take limit)).length = limit ∧
    ∀ m ∈ buffer.entries, InRange start endKey m.1 → m.2 ≠ .delete → m.1 < row.1

section Counting

variable {buffer : Buffer} {start endKey : Bytes} {rows : List (Bytes × Bytes)}

theorem nodup_keys {V : Type} {es : List (Bytes × V)} (h : es.Pairwise (fun a b => a.1 < b.1)) :
    (es.map Prod.fst).Nodup := by
  rw [List.Nodup, pairwise_map]
  exact h.imp fun hlt => ne_of_lt hlt

theorem length_overlay (hsorted : rows.Pairwise (fun a b => a.1 < b.1))
    (hin : ∀ row ∈ rows, InRange start endKey row.1) :
    (overlay start endKey rows buffer).length =
      (kept buffer rows).length + (added buffer start endKey rows).length := by
  have hover := @sorted_overlay start endKey rows hsorted buffer
  have hkept : (kept buffer rows).Pairwise (fun a b => a.1 < b.1) := hsorted.filter _
  have hadded : (added buffer start endKey rows).Pairwise (fun a b => a.1 < b.1) :=
    buffer.sorted.filter _
  have hnodup : ((kept buffer rows).map Prod.fst ++
      (added buffer start endKey rows).map Prod.fst).Nodup := by
    refine nodup_append.mpr ⟨nodup_keys hkept, nodup_keys hadded, ?_⟩
    intro k hk k' hk' heq
    obtain ⟨row, hrow, hk⟩ := mem_map.mp hk
    obtain ⟨m, hm, hk'⟩ := mem_map.mp hk'
    have hother := (of_decide_eq_true (mem_filter.mp hm).2).2.2 row (mem_filter.mp hrow).1
    exact hother (hk.trans (heq.trans hk'.symm))
  have hperm : ((overlay start endKey rows buffer).map Prod.fst).Perm
      ((kept buffer rows).map Prod.fst ++ (added buffer start endKey rows).map Prod.fst) := by
    rw [List.perm_ext_iff_of_nodup (nodup_keys hover) hnodup]
    intro k
    rw [mem_append]
    constructor
    · intro hk
      obtain ⟨row, hrow, hkey⟩ := mem_map.mp hk
      rw [show row = (k, row.2) from Prod.ext hkey rfl, mem_overlay hsorted] at hrow
      by_cases hbuf : InRange start endKey k ∧ (buffer.get? k).isSome
      · rw [if_pos hbuf] at hrow
        obtain ⟨op, hop⟩ := isSome_iff_exists.mp hbuf.2
        have hput : op ≠ .delete := by
          intro hdelete
          rw [hop, hdelete] at hrow
          cases hrow
        by_cases hsent : ∃ r ∈ rows, r.1 = k
        · obtain ⟨r, hr, hrk⟩ := hsent
          refine .inl (mem_map.mpr ⟨r, mem_filter.mpr ⟨hr, decide_eq_true ?_⟩, hrk⟩)
          rw [hrk, hop]
          exact fun h => hput (Option.some.inj h)
        · push Not at hsent
          refine .inr (mem_map.mpr ⟨(k, op), mem_filter.mpr
            ⟨SortedMap.mem_entries.mpr hop, decide_eq_true ⟨hbuf.1, hput, hsent⟩⟩, rfl⟩)
      · rw [if_neg hbuf] at hrow
        refine .inl (mem_map.mpr ⟨(k, row.2), mem_filter.mpr ⟨hrow, decide_eq_true ?_⟩, rfl⟩)
        intro hdelete
        exact hbuf ⟨hin _ hrow, by rw [hdelete]; rfl⟩
    · intro hk
      cases hk with
      | inl hk =>
        obtain ⟨row, hrow, hkey⟩ := mem_map.mp hk
        obtain ⟨hmem, hnot⟩ := mem_filter.mp hrow
        have hnot : buffer.get? row.1 ≠ some .delete := of_decide_eq_true hnot
        cases hget : buffer.get? row.1 with
        | none =>
          refine mem_map.mpr ⟨row, ?_, hkey⟩
          rw [show row = (row.1, row.2) from rfl, mem_overlay hsorted, if_neg (by simp [hget])]
          exact hmem
        | some op =>
          cases op with
          | delete => exact absurd hget hnot
          | put v =>
            refine mem_map.mpr ⟨(row.1, v), ?_, hkey⟩
            rw [mem_overlay hsorted, if_pos ⟨hin row hmem, by rw [hget]; rfl⟩, hget]
            rfl
      | inr hk =>
        obtain ⟨m, hm, hkey⟩ := mem_map.mp hk
        obtain ⟨hmem, hcond⟩ := mem_filter.mp hm
        have hcond := of_decide_eq_true hcond
        have hget : buffer.get? m.1 = some m.2 := SortedMap.mem_entries.mp hmem
        cases hop : m.2 with
        | delete => exact absurd hop hcond.2.1
        | put v =>
          rw [hop] at hget
          refine mem_map.mpr ⟨(m.1, v), ?_, hkey⟩
          rw [mem_overlay hsorted, if_pos ⟨hcond.1, by rw [hget]; rfl⟩, hget]
          rfl
  have hlen := hperm.length_eq
  rw [length_map, length_append, length_map, length_map] at hlen
  exact hlen

/-! ## Cutting off before the overlay. -/

/-- The rows that the server cuts off and the buffer does not mention. -/
def cutOff (buffer : Buffer) (limit : Nat) (rows : List (Bytes × Bytes)) : List (Bytes × Bytes) :=
  (rows.drop limit).filter (fun row => buffer.get? row.1 = none)

section

variable (hsorted : rows.Pairwise (fun a b => a.1 < b.1))
  (hin : ∀ row ∈ rows, InRange start endKey row.1) (limit : Nat)

include hsorted hin limit

theorem mem_overlay_iff_cut (row : Bytes × Bytes) :
    row ∈ overlay start endKey rows buffer ↔
      row ∈ overlay start endKey (rows.take limit) buffer ∨ row ∈ cutOff buffer limit rows := by
  have hcut := hsorted.sublist (List.take_sublist limit rows)
  have hsplit : row ∈ rows ↔ row ∈ rows.take limit ∨ row ∈ rows.drop limit := by
    rw [← mem_append, take_append_drop]
  rw [show row = (row.1, row.2) from rfl, mem_overlay hsorted, mem_overlay hcut]
  by_cases hbuf : InRange start endKey row.1 ∧ (buffer.get? row.1).isSome
  · have hno : row ∉ cutOff buffer limit rows := by
      intro hrow
      have hnone : buffer.get? row.1 = none := of_decide_eq_true (mem_filter.mp hrow).2
      rw [hnone] at hbuf
      cases hbuf.2
    rw [if_pos hbuf, if_pos hbuf]
    exact ⟨.inl, fun h => h.resolve_right hno⟩
  · rw [if_neg hbuf, if_neg hbuf]
    refine hsplit.trans (or_congr_right ?_)
    rw [show (row.1, row.2) = row from rfl]
    constructor
    · intro hrow
      refine mem_filter.mpr ⟨hrow, decide_eq_true ?_⟩
      have hinside := hin row (mem_of_mem_drop hrow)
      cases hget : buffer.get? row.1 with
      | none => rfl
      | some op => exact absurd ⟨hinside, by rw [hget]; rfl⟩ hbuf
    · exact fun hrow => (mem_filter.mp hrow).1

theorem overlay_take_iff :
    overlay start endKey (rows.take limit) buffer =
        (overlay start endKey rows buffer).take limit ↔
      LimitFits buffer start endKey limit rows := by
  have hcut := hsorted.sublist (List.take_sublist limit rows)
  have hall := @sorted_overlay start endKey rows hsorted buffer
  have hover := @sorted_overlay start endKey (rows.take limit) hcut buffer
  have hmem := @mem_overlay_iff_cut buffer start endKey rows hsorted hin limit
  have hlen := @length_overlay buffer start endKey (rows.take limit) hcut
    fun row hrow => hin row (mem_of_mem_take hrow)
  -- a cut-off row is none of the rows that come back
  have hapart : ∀ row ∈ cutOff buffer limit rows, row ∉ overlay start endKey (rows.take limit) buffer := by
    intro row hrow hback
    obtain ⟨hdrop, hnone⟩ := mem_filter.mp hrow
    have hnone : buffer.get? row.1 = none := of_decide_eq_true hnone
    rw [show row = (row.1, row.2) from rfl, mem_overlay hcut, if_neg (by simp [hnone])] at hback
    have hsplit := hsorted
    rw [← take_append_drop limit rows] at hsplit
    exact lt_irrefl _ ((pairwise_append.mp hsplit).2.2 _ hback _ hdrop)
  constructor
  · intro heq
    have hshort : (overlay start endKey (rows.take limit) buffer).length ≤ limit := by
      rw [heq]
      exact length_take_le limit _
    refine ⟨hlen ▸ hshort, fun row hrow hnone => ?_⟩
    have hx : row ∈ cutOff buffer limit rows := mem_filter.mpr ⟨hrow, decide_eq_true hnone⟩
    -- the row is behind the first `limit` rows of the overlay
    have hbehind : row ∈ (overlay start endKey rows buffer).drop limit := by
      have hrow := (hmem row).mpr (.inr hx)
      rw [← take_append_drop limit (overlay start endKey rows buffer), mem_append, ← heq] at hrow
      exact hrow.resolve_left (hapart row hx)
    have hfull : (overlay start endKey (rows.take limit) buffer).length = limit := by
      have hpos := List.length_pos_of_mem hbehind
      rw [heq, length_take]
      rw [length_drop] at hpos
      omega
    have hbefore : ∀ r ∈ overlay start endKey (rows.take limit) buffer, r.1 < row.1 := by
      intro r hr
      have hsplit := hall
      rw [← take_append_drop limit (overlay start endKey rows buffer)] at hsplit
      rw [heq] at hr
      exact (pairwise_append.mp hsplit).2.2 r hr row hbehind
    refine ⟨hlen ▸ hfull, fun m hm hmin hput => ?_⟩
    have hget : buffer.get? m.1 = some m.2 := SortedMap.mem_entries.mp hm
    cases hop : m.2 with
    | delete => exact absurd hop hput
    | put v =>
      rw [hop] at hget
      apply hbefore (m.1, v)
      rw [mem_overlay hcut, if_pos ⟨hmin, by rw [hget]; rfl⟩, hget]
      rfl
  · intro hfits
    -- what comes back stands before what was cut off
    have hordered : ∀ r ∈ overlay start endKey (rows.take limit) buffer,
        ∀ x ∈ cutOff buffer limit rows, r.1 < x.1 := by
      intro r hr x hx
      obtain ⟨hdrop, hnone⟩ := mem_filter.mp hx
      rw [show r = (r.1, r.2) from rfl, mem_overlay hcut] at hr
      by_cases hbuf : InRange start endKey r.1 ∧ (buffer.get? r.1).isSome
      · rw [if_pos hbuf] at hr
        obtain ⟨op, hop⟩ := isSome_iff_exists.mp hbuf.2
        refine (hfits.full x hdrop (of_decide_eq_true hnone)).2 (r.1, op)
          (SortedMap.mem_entries.mpr hop) hbuf.1 ?_
        intro hdelete
        have hdelete : op = .delete := hdelete
        rw [hop, hdelete] at hr
        cases hr
      · rw [if_neg hbuf] at hr
        have hsplit := hsorted
        rw [← take_append_drop limit rows] at hsplit
        exact (pairwise_append.mp hsplit).2.2 _ hr x hdrop
    have happend : overlay start endKey rows buffer =
        overlay start endKey (rows.take limit) buffer ++ cutOff buffer limit rows := by
      apply SortedMap.eq_of_mem_iff hall
      · exact pairwise_append.mpr ⟨hover,
          (hsorted.sublist (List.drop_sublist limit rows)).filter _, hordered⟩
      · intro row
        rw [hmem row, mem_append]
    rw [happend]
    cases hcutoff : cutOff buffer limit rows with
    | nil =>
      have hshort : (overlay start endKey (rows.take limit) buffer).length ≤ limit := by
        rw [hlen]
        exact hfits.fits
      rw [append_nil, take_of_length_le hshort]
    | cons x xs =>
      have hx : x ∈ cutOff buffer limit rows := by
        rw [hcutoff]
        exact mem_cons_self
      obtain ⟨hdrop, hnone⟩ := mem_filter.mp hx
      have hfull := (hfits.full x hdrop (of_decide_eq_true hnone)).1
      rw [← hlen] at hfull
      rw [take_left' hfull]

end

end Counting

/-! ## The scan against the overlaid snapshot. -/

/-- **A scan that sees its own writes within the limit.**  With no lock and no failing read in
the way, the scan returns the first `limit` rows of the snapshot with the buffered writes
overlaid exactly when `LimitFits`. -/
theorem scan_first_rows_iff (n : Node) (peers : Peers) (htiled : n.Tiled) (hlead : n.Leads peers)
    (db : DB) (hdb : Readable db) (t : Txn) (hactive : t.active = true) (start endKey : Bytes)
    (limit : Nat) (hlimit : 0 < limit)
    (hfree : ∀ k lock, InRange start endKey k → getLock db k = .ok (some lock) →
      ¬ lock.startTs ≤ t.startTs)
    (hok : ∀ k s, InRange start endKey k → txnGet db k t.startTs ≠ .error s) :
    ∃ snapshot all : List (Bytes × Bytes),
      snapshot.Pairwise (fun a b => a.1 < b.1) ∧
      (∀ k v, (k, v) ∈ snapshot ↔ InRange start endKey k ∧
        txnGet db k t.startTs = .ok { found := true, value := v }) ∧
      all.Pairwise (fun a b => a.1 < b.1) ∧
      (∀ k v, (k, v) ∈ all ↔ InRange start endKey k ∧
        if (t.mutations.get? k).isSome then (t.mutations.get? k).bind Mutation.value? = some v
        else (k, v) ∈ snapshot) ∧
      (t.scan (served n peers db) start endKey limit = ({}, all.take limit) ↔
        LimitFits t.mutations start endKey limit snapshot) := by
  have hsorted := Txn.Codec.sorted_scanRows hdb.toFormed start endKey t.startTs
  have hmem : ∀ k v, (k, v) ∈ scanRows db start endKey t.startTs ↔ InRange start endKey k ∧
      txnGet db k t.startTs = .ok { found := true, value := v } :=
    fun k v => Txn.Codec.mem_scanRows hdb
  have hin : ∀ row ∈ scanRows db start endKey t.startTs, InRange start endKey row.1 :=
    fun row hrow => ((hmem row.1 row.2).mp hrow).1
  refine ⟨scanRows db start endKey t.startTs,
    overlay start endKey (scanRows db start endKey t.startTs) t.mutations, hsorted, hmem,
    sorted_overlay hsorted t.mutations, fun k v => ?_, ?_⟩
  · rw [mem_overlay hsorted]
    by_cases hk : InRange start endKey k
    · simp only [hk, true_and]
    · simp only [hk, false_and, if_false, iff_false]
      exact fun hrow => hk (hin _ hrow)
  · have hanswer := Server.Node.txnScanAcrossRanges_free htiled hlead hdb
      { key := start, endKey := endKey, limit := limit, ts := t.startTs } hfree hok
    have hscan : t.scan (served n peers db) start endKey limit =
        ({}, overlay start endKey ((scanRows db start endKey t.startTs).take limit) t.mutations) := by
      unfold Txn.scan scanAttempts served
      rw [if_neg (by simp [hactive])]
      dsimp only
      rw [hanswer]
      dsimp only
      rw [if_neg (Nat.pos_iff_ne_zero.mp hlimit)]
      rfl
    rw [hscan, ← overlay_take_iff hsorted hin limit, Prod.mk.injEq]
    exact ⟨fun h => h.2, fun h => ⟨rfl, h⟩⟩

def twoRows : DB :=
  Txn.Codec.applyTxns .empty
    [Txn.Codec.txnPrewrite (text "a") (text "1") 1 1 (text "a") 0,
      Txn.Codec.txnCommit (text "a") 1 2,
      Txn.Codec.txnPrewrite (text "b") (text "2") 1 3 (text "b") 0,
      Txn.Codec.txnCommit (text "b") 3 4]

theorem twoRows_readable : Readable twoRows := by
  have hbase : Txn.Codec.Untouched .empty := nofun
  exact hbase.readable.applyTxns _

theorem twoRows_unlocked {k : Bytes} {lock : Txn.Codec.LockRecord} :
    getLock twoRows k ≠ .ok (some lock) := by
  intro hlock
  obtain ⟨v, hv, _⟩ := Txn.Codec.getLock_eq_some.mp hlock
  have hnone : ∀ e ∈ twoRows.entries, e.1.take 2 ≠ Txn.Codec.kLockPrefix := by decide +kernel
  exact hnone _ (SortedMap.mem_entries.mpr hv) rfl

theorem twoRows_reads (k : Bytes) (s : Status) : txnGet twoRows k 10 ≠ .error s := by
  -- only the two keys have write records
  have hkeys : ∀ e ∈ twoRows.entries, e.1.take 2 = Txn.Codec.kWritePrefix →
      e.1 = Txn.Codec.writeKey (text "a") 2 ∨ e.1 = Txn.Codec.writeKey (text "b") 4 := by
    decide +kernel
  have hok : ∀ key ∈ [text "a", text "b"], (txnGet twoRows key 10).isOk = true := by decide +kernel
  by_cases hwritten : ∃ ts v, twoRows.get? (Txn.Codec.writeKey k ts) = some v
  · obtain ⟨ts, v, hv⟩ := hwritten
    have hk : k ∈ [text "a", text "b"] := by
      have hinj : ∀ {k' ts'}, Txn.Codec.writeKey k ts = Txn.Codec.writeKey k' ts' → k = k' := by
        intro k' ts' heq
        unfold Txn.Codec.writeKey at heq
        rw [append_assoc, append_assoc] at heq
        exact (Txn.Codec.escapeKey_append_inj (append_cancel_left heq)).1
      cases hkeys _ (SortedMap.mem_entries.mpr hv) rfl with
      | inl ha => exact hinj ha ▸ mem_cons_self
      | inr hb => exact hinj hb ▸ mem_cons_of_mem _ mem_cons_self
    intro herror
    have := hok k hk
    rw [herror] at this
    cases this
  · push Not at hwritten
    exact (Txn.Codec.txnGet_unwritten twoRows_readable 10 hwritten).1 s

/-- A transaction that has written a third key: the limit leaves room for it. -/
theorem scan_first_rows_iff_threeRows :
    ∃ all : List (Bytes × Bytes), (text "c", text "3") ∈ all ∧
      ({ startTs := 10, active := true
         mutations := Buffer.put .empty (text "c") (text "3") } : Txn).scan
          (served .halves Node.leading twoRows) [] [] 3 = ({}, all.take 3) := by
  obtain ⟨snapshot, all, hsorted, hsnap, _, hmem, hiff⟩ :=
    scan_first_rows_iff .halves Node.leading Node.halves_tiled ⟨fun _ => rfl, fun _ => rfl⟩ twoRows
      twoRows_readable { startTs := 10, active := true
                         mutations := Buffer.put .empty (text "c") (text "3") } rfl [] [] 3
      (by decide) (fun k lock _ hlock => absurd hlock twoRows_unlocked)
      (fun k s _ => twoRows_reads k s)
  have hrows : snapshot = [(text "a", text "1"), (text "b", text "2")] := by
    have hscan : scanRows twoRows [] [] 10 = [(text "a", text "1"), (text "b", text "2")] := by
      decide +kernel
    rw [← hscan]
    apply SortedMap.eq_of_mem_iff hsorted
      (Txn.Codec.sorted_scanRows twoRows_readable.toFormed [] [] 10)
    exact fun row => (hsnap row.1 row.2).trans (Txn.Codec.mem_scanRows twoRows_readable).symm
  refine ⟨all, (hmem _ _).mpr ⟨by decide +kernel, ?_⟩, hiff.mpr ?_⟩
  · rw [if_pos (by decide +kernel)]
    decide +kernel
  · rw [hrows]
    exact ⟨by decide +kernel, by decide +kernel⟩

/-- The snapshot has two rows, the first is deleted in the buffer, and one row is asked for:
none comes back, although the second is there. -/
theorem scan_misses_row :
    (({ startTs := 10, active := true
        mutations := Buffer.delete .empty (text "a") } : Txn).scan
          (served .halves Node.leading twoRows) [] [] 1).2 = [] ∧
      (txnGet twoRows (text "b") 10).toOption = some { found := true, value := text "2" } ∧
      (Buffer.delete .empty (text "a")).get? (text "b") = none := by
  decide +kernel

end Flotilla.Client
