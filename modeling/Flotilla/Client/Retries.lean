/-
  Client.Retries — histories of single keys under retries.

  A `PUT` or `DELETE` acts when its first copy is executed, a `GET` when the
  copy of the round that is answered is.  Later copies of a write are harmless
  as long as nothing else was written in between: they write what is there.
-/
import Flotilla.Client.Call

namespace Flotilla.Client

open Flotilla.Interleaving
open Flotilla.Linearizability

/-! ## The value of a key. -/

theorem valueOf_concat (key : Key) (log : List Entry) (e : Entry) :
    valueOf key (log ++ [e]) =
      if e.key = key then (register.apply (valueOf key log) e.op).1 else valueOf key log := by
  unfold valueOf
  rw [foldl_append]
  rfl

theorem apply_write {op : RegisterOp} (hop : op ≠ .get) (v w : Option Bytes) :
    (register.apply v op).1 = (register.apply w op).1 := by
  cases op with
  | put new | delete => rfl
  | get => exact absurd rfl hop

theorem apply_write_res {op : RegisterOp} (hop : op ≠ .get) (v : Option Bytes) :
    (register.apply v op).2 = .ok := by
  cases op with
  | put new | delete => rfl
  | get => exact absurd rfl hop

theorem valueOf_append {key : Key} {log rest : List Entry} {v : Option Bytes}
    (hlog : valueOf key log = v)
    (hrest : ∀ e ∈ rest, e.key = key → (register.apply v e.op).1 = v) :
    valueOf key (log ++ rest) = v := by
  induction rest generalizing log with
  | nil =>
    rw [append_nil]
    exact hlog
  | cons e rest ih =>
    rw [List.append_cons]
    apply ih
    · rw [valueOf_concat, hlog]
      split
      · rename_i hkey
        exact hrest e mem_cons_self hkey
      · rfl
    · intro e' he'
      exact hrest e' (mem_cons_of_mem e he')

theorem valueOf_copy {log : List Entry} {i : Nat} {key : Key} {op : RegisterOp} (hop : op ≠ .get)
    (hfirst : ∃ e ∈ log, e.call = i) (hsame : ∀ e ∈ log, e.call = i → e.key = key ∧ e.op = op)
    (hlast : ∀ e ∈ log.dropWhile (fun e => e.call != i), e.call = i ∨ e.key ≠ key) :
    valueOf key (log ++ [⟨i, key, op⟩]) = valueOf key log := by
  -- the log up to the first copy, that copy, and the rest, which has other keys or more copies
  have hcut := List.takeWhile_append_dropWhile (p := fun e : Entry => e.call != i) (l := log)
  cases hdrop : log.dropWhile (fun e => e.call != i) with
  | nil =>
    obtain ⟨e, he, hcall⟩ := hfirst
    have hall := List.dropWhile_eq_nil_iff.mp hdrop e he
    simp [hcall] at hall
  | cons e rest =>
    rw [hdrop] at hcut hlast
    have hmem : ∀ e' ∈ e :: rest, e' ∈ log := by
      intro e' he'
      rw [← hcut]
      exact mem_append_right _ he'
    have hcall : e.call = i := by
      have := List.head_dropWhile_not (fun e : Entry => e.call != i) (by rw [hdrop]; simp)
      simpa [hdrop] using this
    obtain ⟨hkey, heop⟩ := hsame e (hmem e mem_cons_self) hcall
    have hval : valueOf key log = (register.apply none op).1 := by
      rw [← hcut, List.append_cons]
      apply valueOf_append
      · rw [valueOf_concat, if_pos hkey, heop]
        exact apply_write hop _ _
      · intro e' he' hkey'
        have hcopy := (hlast e' (mem_cons_of_mem e he')).resolve_right (absurd hkey')
        rw [(hsame e' (hmem e' (mem_cons_of_mem e he')) hcopy).2]
        exact apply_write hop _ _
    rw [valueOf_concat, if_pos rfl, hval]
    exact apply_write hop _ _

/-! ## Calls, log and history. -/

theorem getElem?_set_goesOn {calls : List Call} {i j : Nat} {c c' d : Call}
    (hc : calls[i]? = some c) (hgo : Clients.GoesOn c c') (hd : calls[j]? = some d) :
    ∃ d', (calls.set i c')[j]? = some d' ∧ Clients.GoesOn d d' ∧ (d' = d ∨ (j = i ∧ d' = c')) := by
  by_cases hji : j = i
  · subst hji
    cases hc.symm.trans hd
    obtain ⟨hlt, _⟩ := getElem?_eq_some_iff.mp hc
    exact ⟨c', List.getElem?_set_self hlt, hgo, .inr ⟨rfl, rfl⟩⟩
  · exact ⟨d, (List.getElem?_set_ne (Ne.symm hji)).trans hd, .phase d d.phase, .inl rfl⟩

structure CallsOk (calls : List Call) (log : List Entry)
    (history : List (Key × Act RegisterOp RegisterRes)) : Prop where
  flight : ∀ {i : Nat} {c : Call}, calls[i]? = some c → ∀ a ∈ c.inFlight, a < c.attempt
  entry : ∀ e ∈ log, e.op ≠ .get ∧ ∃ c, calls[e.call]? = some c ∧ e.key = c.key ∧ e.op = c.op
  invoked : ∀ {i : Nat} {c : Call}, calls[i]? = some c → (c.key, Act.invoke i c.op) ∈ history
  replied : ∀ {k : Key} {i : Nat} {res : RegisterRes}, (k, Act.reply i res) ∈ history →
    ∃ (c : Call) (copy : Nat), calls[i]? = some c ∧ c.key = k ∧ c.phase = .done copy res

section

variable {calls : List Call} {log : List Entry}
  {history : List (Key × Act RegisterOp RegisterRes)}

theorem CallsOk.set (h : CallsOk calls log history) {i : Nat} {c c' : Call}
    (hc : calls[i]? = some c) (hgo : Clients.GoesOn c c')
    (hdone : ∀ copy res, c.phase = .done copy res → c'.phase = .done copy res) :
    CallsOk (calls.set i c') log history where
  flight := by
    intro j d hd a ha
    rcases getElem?_set_cases hd with ⟨_, rfl⟩ | ⟨_, hd⟩
    · rcases hgo.inFlight a ha with ha | ⟨_, hlt⟩
      · exact (h.flight hc a ha).trans_le hgo.attempt
      · exact hlt
    · exact h.flight hd a ha
  entry := by
    intro e he
    obtain ⟨hop, d, hd, hkey, hsame⟩ := h.entry e he
    obtain ⟨d', hd', hgo', _⟩ := getElem?_set_goesOn hc hgo hd
    exact ⟨hop, d', hd', hkey.trans hgo'.key.symm, hsame.trans hgo'.op.symm⟩
  invoked := by
    intro j d hd
    rcases getElem?_set_cases hd with ⟨rfl, rfl⟩ | ⟨_, hd⟩
    · rw [hgo.key, hgo.op]
      exact h.invoked hc
    · exact h.invoked hd
  replied := by
    intro k j res hres
    obtain ⟨d, copy, hd, hkey, hphase⟩ := h.replied hres
    obtain ⟨d', hd', hgo', hcase⟩ := getElem?_set_goesOn hc hgo hd
    refine ⟨d', copy, hd', hgo'.key.trans hkey, ?_⟩
    rcases hcase with rfl | ⟨rfl, rfl⟩
    · exact hphase
    · cases hc.symm.trans hd
      exact hdone copy res hphase

theorem CallsOk.append (h : CallsOk calls log history) {i : Nat} {c : Call}
    (hc : calls[i]? = some c) (hop : c.op ≠ .get) :
    CallsOk calls (log ++ [⟨i, c.key, c.op⟩]) history where
  flight := h.flight
  entry := by
    intro e he
    rcases mem_append.mp he with he | he
    · exact h.entry e he
    · rw [mem_singleton.mp he]
      exact ⟨hop, c, hc, rfl, rfl⟩
  invoked := h.invoked
  replied := h.replied

theorem CallsOk.invoke (h : CallsOk calls log history) (key : Key) (op : RegisterOp)
    (addrs : Nat) :
    CallsOk (calls ++ [{ key := key, op := op, addrs := addrs }]) log
      (history ++ [(key, .invoke calls.length op)]) where
  flight := by
    intro i c hc a ha
    rcases getElem?_concat_cases hc with hc | ⟨_, rfl⟩
    · exact h.flight hc a ha
    · exact (not_mem_nil ha).elim
  entry := by
    intro e he
    obtain ⟨hop, c, hc, hsame⟩ := h.entry e he
    exact ⟨hop, c, getElem?_of_isPrefix (prefix_append _ _) hc, hsame⟩
  invoked := by
    intro i c hc
    rcases getElem?_concat_cases hc with hc | ⟨rfl, rfl⟩
    · exact mem_append_left _ (h.invoked hc)
    · exact mem_append_right _ mem_cons_self
  replied := by
    intro k i res hres
    rcases mem_append.mp hres with hres | hres
    · obtain ⟨c, copy, hc, hsame⟩ := h.replied hres
      exact ⟨c, copy, getElem?_of_isPrefix (prefix_append _ _) hc, hsame⟩
    · cases mem_singleton.mp hres

theorem CallsOk.reply (h : CallsOk calls log history) {i copy : Nat} {res : RegisterRes} {c : Call}
    (hc : calls[i]? = some c) (hphase : c.phase = .done copy res) :
    CallsOk calls log (history ++ [(c.key, .reply i res)]) where
  flight := h.flight
  entry := h.entry
  invoked := fun hd => mem_append_left _ (h.invoked hd)
  replied := by
    intro k j res' hres
    rcases mem_append.mp hres with hres | hres
    · exact h.replied hres
    · cases mem_singleton.mp hres
      exact ⟨c, copy, hc, rfl, hphase⟩

/-! ## The points of one key. -/

abbrev RegisterPoint := Point RegisterOp RegisterRes

/-- Some copy of the call has acted, for a `GET` the one that the call was answered with. -/
def Answered (pts : List RegisterPoint) (i : Nat) (op : RegisterOp) (copy : Nat)
    (res : RegisterRes) : Prop :=
  ∃ x ∈ pts, x.step.id = i ∧ x.step.res = res ∧ (op = .get → x.attempt = copy)

/-- The call of a point. -/
def ActsFor (calls : List Call) (log : List Entry) (k : Key) (x : RegisterPoint) : Prop :=
  ∃ c, calls[x.step.id]? = some c ∧ c.key = k ∧ c.op = x.step.op ∧
    (c.op = .get → x.attempt < c.attempt ∧ x.attempt ∉ c.inFlight) ∧
    (c.op ≠ .get → x.step.res = .ok ∧ ∃ e ∈ log, e.call = x.step.id)

structure KeyOk (k : Key) (calls : List Call) (log : List Entry)
    (history : List (Key × Act RegisterOp RegisterRes)) (pts : List RegisterPoint) : Prop where
  points : Points register (logOf history k) pts
  value : register.run register.init (pts.map Point.step) = valueOf k log
  acts : ∀ x ∈ pts, ActsFor calls log k x
  /-- Only a `GET` acts more than once, once for each copy. -/
  once : pts.Pairwise (fun x y =>
    x.step.id = y.step.id → y.step.op = .get ∧ x.attempt ≠ y.attempt)
  logged : ∀ e ∈ log, e.key = k → ∃ x ∈ pts, x.step.id = e.call
  answered : ∀ {i : Nat} {c : Call} {copy : Nat} {res : RegisterRes}, calls[i]? = some c →
    c.key = k → c.phase.answer? = some (copy, res) → Answered pts i c.op copy res

variable {k : Key} {pts : List RegisterPoint} {i : Nat} {c : Call}

theorem ActsFor.set {x : RegisterPoint} (h : ActsFor calls log k x) (hc : calls[i]? = some c)
    {c' : Call} (hgo : Clients.GoesOn c c') : ActsFor (calls.set i c') log k x := by
  obtain ⟨d, hd, hkey, hop, hget, hwrite⟩ := h
  obtain ⟨d', hd', hgo', _⟩ := getElem?_set_goesOn hc hgo hd
  refine ⟨d', hd', hgo'.key.trans hkey, hgo'.op.trans hop, ?_, ?_⟩
  · intro hg
    obtain ⟨hlt, hnot⟩ := hget (hgo'.op ▸ hg)
    refine ⟨hlt.trans_le hgo'.attempt, fun hmem => ?_⟩
    rcases hgo'.inFlight _ hmem with hmem | ⟨heq, _⟩
    · exact hnot hmem
    · omega
  · intro hw
    exact hwrite (hgo'.op ▸ hw)

theorem ActsFor.mono {x : RegisterPoint} (h : ActsFor calls log k x) {log' : List Entry}
    (hsub : ∀ e ∈ log, e ∈ log') : ActsFor calls log' k x := by
  obtain ⟨d, hd, hkey, hop, hget, hwrite⟩ := h
  refine ⟨d, hd, hkey, hop, hget, fun hw => ?_⟩
  obtain ⟨hres, e, he, hcall⟩ := hwrite hw
  exact ⟨hres, e, hsub e he, hcall⟩

theorem KeyOk.set (h : KeyOk k calls log history pts) (hc : calls[i]? = some c) {c' : Call}
    (hgo : Clients.GoesOn c c')
    (hanswer : c.key = k → ∀ copy res, c'.phase.answer? = some (copy, res) →
      Answered pts i c.op copy res) : KeyOk k (calls.set i c') log history pts where
  points := h.points
  value := h.value
  acts := fun x hx => (h.acts x hx).set hc hgo
  once := h.once
  logged := h.logged
  answered := by
    intro j d copy res hd hkey hans
    rcases getElem?_set_cases hd with ⟨rfl, rfl⟩ | ⟨_, hd⟩
    · rw [hgo.op]
      exact hanswer (hgo.key.symm.trans hkey) copy res hans
    · exact h.answered hd hkey hans

theorem KeyOk.append (h : KeyOk k calls log history pts) {e : Entry}
    (hval : valueOf k (log ++ [e]) = valueOf k log)
    (hlogged : e.key = k → ∃ x ∈ pts, x.step.id = e.call) :
    KeyOk k calls (log ++ [e]) history pts where
  points := h.points
  value := h.value.trans hval.symm
  acts := fun x hx => (h.acts x hx).mono (fun _ he => mem_append_left _ he)
  once := h.once
  logged := by
    intro e' he' hkey
    rcases mem_append.mp he' with he' | he'
    · exact h.logged e' he' hkey
    · rw [mem_singleton.mp he'] at hkey ⊢
      exact hlogged hkey
  answered := h.answered

/-- The point of an operation that acts now. -/
def pointOf (k : Key) (log : List Entry) (history : List (Key × Act RegisterOp RegisterRes))
    (i : Nat) (op : RegisterOp) (copy : Nat) : RegisterPoint :=
  ⟨⟨i, op, (register.apply (valueOf k log) op).2⟩, copy, (logOf history k).length⟩

theorem KeyOk.act (h : KeyOk k calls log history pts) (hcalls : CallsOk calls log history)
    (hc : calls[i]? = some c) (hkey : c.key = k) {copy : Nat} {log' : List Entry}
    (hopen : ∀ res, (k, Act.reply i res) ∉ history)
    (hnew : ∀ x ∈ pts, x.step.id = i → c.op = .get ∧ x.attempt ≠ copy)
    (hsub : ∀ e ∈ log, e ∈ log') (hlog : ∀ e ∈ log', e ∈ log ∨ e.call = i)
    (hval : valueOf k log' = (register.apply (valueOf k log) c.op).1)
    (hacts : ActsFor calls log' k (pointOf k log history i c.op copy)) :
    KeyOk k calls log' history (pts ++ [pointOf k log history i c.op copy]) where
  points := by
    unfold pointOf
    rw [← h.value]
    apply h.points.add
    · rw [mem_logOf, ← hkey]
      exact hcalls.invoked hc
    · intro res hres
      exact hopen res (mem_logOf.mp hres)
  value := by
    rw [map_append, List.map_singleton, register.run_concat, h.value]
    exact hval.symm
  acts := by
    intro x hx
    rcases mem_append.mp hx with hx | hx
    · exact (h.acts x hx).mono hsub
    · rw [mem_singleton.mp hx]
      exact hacts
  once := by
    apply pairwise_append.mpr ⟨h.once, pairwise_singleton _ _, ?_⟩
    intro x hx y hy hid
    rw [mem_singleton.mp hy] at hid ⊢
    exact hnew x hx hid
  logged := by
    intro e he hek
    rcases hlog e he with he | hcall
    · obtain ⟨x, hx, hid⟩ := h.logged e he hek
      exact ⟨x, mem_append_left _ hx, hid⟩
    · exact ⟨_, mem_append_right _ mem_cons_self, hcall.symm⟩
  answered := by
    intro j d copy' res hd hkey' hans
    obtain ⟨x, hx, hrest⟩ := h.answered hd hkey' hans
    exact ⟨x, mem_append_left _ hx, hrest⟩

theorem KeyOk.invoke (h : KeyOk k calls log history pts) (key : Key) (op : RegisterOp)
    (addrs : Nat) :
    KeyOk k (calls ++ [{ key := key, op := op, addrs := addrs }]) log
      (history ++ [(key, .invoke calls.length op)]) pts where
  points := by
    by_cases hkey : key = k
    · rw [hkey, logOf_concat_self]
      apply h.points.invoke op
      intro x hx hid
      obtain ⟨c, hc, _⟩ := h.acts x hx
      rw [hid, List.getElem?_eq_none le_rfl] at hc
      cases hc
    · rw [logOf_concat_of_ne hkey]
      exact h.points
  value := h.value
  acts := by
    intro x hx
    obtain ⟨c, hc, hrest⟩ := h.acts x hx
    exact ⟨c, getElem?_of_isPrefix (prefix_append _ _) hc, hrest⟩
  once := h.once
  logged := h.logged
  answered := by
    intro i c copy res hc hkey hans
    rcases getElem?_concat_cases hc with hc | ⟨_, rfl⟩
    · exact h.answered hc hkey hans
    · cases hans

theorem KeyOk.reply (h : KeyOk k calls log history pts) (key : Key) (i : Nat) (res : RegisterRes) :
    KeyOk k calls log (history ++ [(key, .reply i res)]) pts := by
  refine { h with points := ?_ }
  by_cases hkey : key = k
  · rw [hkey, logOf_concat_self]
    exact h.points.reply i res
  · rw [logOf_concat_of_ne hkey]
    exact h.points

/-! ## Copies. -/

/-- The call after the copy has left the network. -/
def delivered (c : Call) (copy : Nat) : Call :=
  { c with inFlight := c.inFlight.filter (· ≠ copy) }

theorem delivered_goesOn (c : Call) (copy : Nat) (phase : Phase) :
    Clients.GoesOn c { delivered c copy with phase := phase } :=
  ⟨rfl, rfl, le_rfl, fun _ ha => .inl (mem_of_mem_filter ha)⟩

theorem not_mem_delivered (c : Call) (copy : Nat) : copy ∉ (delivered c copy).inFlight := by
  simp [delivered]

section

variable (h : KeyOk k calls log history pts) (hcalls : CallsOk calls log history)
  (hc : calls[i]? = some c)

include h hcalls hc

theorem KeyOk.serveGet (hkey : c.key = k) (hop : c.op = .get) {copy : Nat}
    (hlt : copy < c.attempt) (hgone : copy ∉ c.inFlight) (hwait : c.phase = .waiting copy)
    (hnew : ∀ x ∈ pts, x.step.id = i → x.attempt ≠ copy) :
    KeyOk k calls log history (pts ++ [pointOf k log history i c.op copy]) := by
  apply h.act hcalls hc hkey
  · intro res hres
    obtain ⟨d, copy', hd, _, hdone⟩ := hcalls.replied hres
    cases hc.symm.trans hd
    rw [hwait] at hdone
    cases hdone
  · exact fun x hx hid => ⟨hop, hnew x hx hid⟩
  · exact fun e he => he
  · exact fun e he => .inl he
  · rw [hop]
    rfl
  · exact ⟨c, hc, hkey, rfl, fun _ => ⟨hlt, hgone⟩, absurd hop⟩

theorem KeyOk.serveFirst (hkey : c.key = k) (hop : c.op ≠ .get)
    (hfirst : ∀ e ∈ log, e.call ≠ i) (copy : Nat) :
    KeyOk k calls (log ++ [⟨i, c.key, c.op⟩]) history
      (pts ++ [pointOf k log history i c.op copy]) := by
  -- a call that has acted is in the log
  have hnone : ∀ x ∈ pts, x.step.id ≠ i := by
    intro x hx hid
    obtain ⟨d, hd, _, _, _, hwrite⟩ := h.acts x hx
    rw [hid] at hd hwrite
    cases hc.symm.trans hd
    obtain ⟨_, e, he, hcall⟩ := hwrite hop
    exact hfirst e he hcall
  apply h.act hcalls hc hkey
  · intro res hres
    obtain ⟨d, copy', hd, hdk, hdone⟩ := hcalls.replied hres
    have hans : d.phase.answer? = some (copy', res) := by
      rw [hdone]
      rfl
    obtain ⟨x, hx, hid, _⟩ := h.answered hd hdk hans
    exact hnone x hx hid
  · exact fun x hx hid => absurd hid (hnone x hx)
  · exact fun e he => mem_append_left _ he
  · intro e he
    rcases mem_append.mp he with he | he
    · exact .inl he
    · rw [mem_singleton.mp he]
      exact .inr rfl
  · rw [valueOf_concat, if_pos hkey]
  · refine ⟨c, hc, hkey, rfl, fun hg => absurd hg hop, fun _ => ⟨apply_write_res hop _, ?_⟩⟩
    exact ⟨_, mem_append_right _ mem_cons_self, rfl⟩

theorem KeyOk.serve {copy : Nat} (hlt : copy < c.attempt) (hgone : copy ∉ c.inFlight)
    (hnew : ∀ x ∈ pts, x.step.id = i → c.op = .get → x.attempt ≠ copy)
    (hlast : ∀ e ∈ log.dropWhile (fun e => e.call != i), e.call = i ∨ e.key ≠ c.key) :
    ∃ pts', KeyOk k calls (if c.op = .get then log else log ++ [⟨i, c.key, c.op⟩]) history pts' ∧
      (c.key = k → c.phase = .waiting copy →
        Answered pts' i c.op copy (register.apply (valueOf c.key log) c.op).2) := by
  by_cases hkey : c.key = k
  · by_cases hop : c.op = .get
    · rw [if_pos hop]
      by_cases hwait : c.phase = .waiting copy
      · refine ⟨_, h.serveGet hcalls hc hkey hop hlt hgone hwait
          (fun x hx hid => hnew x hx hid hop), fun _ _ => ?_⟩
        rw [hkey]
        exact ⟨_, mem_append_right _ mem_cons_self, rfl, rfl, fun _ => rfl⟩
      · exact ⟨pts, h, fun _ hw => absurd hw hwait⟩
    · rw [if_neg hop]
      by_cases hfirst : ∃ e ∈ log, e.call = i
      · -- one more copy: the point is that of the first
        have hsame : ∀ e ∈ log, e.call = i → e.key = c.key ∧ e.op = c.op := by
          intro e he hcall
          obtain ⟨_, d, hd, hek, heop⟩ := hcalls.entry e he
          rw [hcall] at hd
          cases hc.symm.trans hd
          exact ⟨hek, heop⟩
        have hpoint : ∃ x ∈ pts, x.step.id = i := by
          obtain ⟨e, he, hcall⟩ := hfirst
          obtain ⟨x, hx, hid⟩ := h.logged e he ((hsame e he hcall).1.trans hkey)
          exact ⟨x, hx, hid.trans hcall⟩
        have hval := valueOf_copy hop hfirst hsame hlast
        rw [hkey] at hval ⊢
        refine ⟨pts, h.append hval (fun _ => hpoint), fun _ _ => ?_⟩
        obtain ⟨x, hx, hid⟩ := hpoint
        obtain ⟨d, hd, _, _, _, hwrite⟩ := h.acts x hx
        rw [hid] at hd
        cases hc.symm.trans hd
        refine ⟨x, hx, hid, ?_, fun hg => absurd hg hop⟩
        rw [apply_write_res hop]
        exact (hwrite hop).1
      · have hfirst' : ∀ e ∈ log, e.call ≠ i := fun e he hcall => hfirst ⟨e, he, hcall⟩
        refine ⟨_, h.serveFirst hcalls hc hkey hop hfirst' copy, fun _ _ => ?_⟩
        rw [hkey]
        exact ⟨_, mem_append_right _ mem_cons_self, rfl, rfl, fun hg => absurd hg hop⟩
  · refine ⟨pts, ?_, fun hk => absurd hk hkey⟩
    by_cases hop : c.op = .get
    · rw [if_pos hop]
      exact h
    · rw [if_neg hop]
      apply h.append
      · rw [valueOf_concat, if_neg hkey]
      · exact fun hk => absurd hk hkey

end

end

/-! ## Runs. -/

structure Clients.Ok (s : Clients) : Prop where
  calls : CallsOk s.calls s.log s.history
  keys : ∀ k, ∃ pts, KeyOk k s.calls s.log s.history pts

theorem Clients.Ok.boot : Clients.Ok {} where
  calls :=
    { flight := fun hc => nomatch hc
      entry := List.forall_mem_nil _
      invoked := fun hc => nomatch hc
      replied := fun hr => (not_mem_nil hr).elim }
  keys := fun _ => ⟨[],
    { points := .empty
      value := rfl
      acts := List.forall_mem_nil _
      once := .nil
      logged := List.forall_mem_nil _
      answered := fun hc => nomatch hc }⟩

theorem Clients.Ok.serve {s : Clients} (h : s.Ok) {i copy : Nat} {c : Call}
    (hc : s.calls[i]? = some c) (hcopy : copy ∈ c.inFlight)
    (hcareful : s.careful (.serve i copy) = true) :
    Clients.Ok
      { s with
        log := if c.op = .get then s.log else s.log ++ [⟨i, c.key, c.op⟩]
        calls := s.calls.set i { delivered c copy with
          phase := answer c copy (register.apply (valueOf c.key s.log) c.op).2 } } := by
  obtain ⟨hlt, _⟩ := getElem?_eq_some_iff.mp hc
  have hlast : ∀ e ∈ s.log.dropWhile (fun e => e.call != i), e.call = i ∨ e.key ≠ c.key := by
    unfold Clients.careful at hcareful
    simp only [hc] at hcareful
    intro e he
    simpa using all_eq_true.mp hcareful e he
  -- first the copy leaves the network, then it is executed, then the call learns of it
  have hgo := delivered_goesOn c copy c.phase
  have hc₁ : (s.calls.set i (delivered c copy))[i]? = some (delivered c copy) :=
    List.getElem?_set_self hlt
  have hcalls₁ := h.calls.set hc hgo (fun _ _ hdone => hdone)
  have hgo₂ := Clients.GoesOn.phase (delivered c copy)
    (answer c copy (register.apply (valueOf c.key s.log) c.op).2)
  constructor
  · show CallsOk (s.calls.set i _) _ s.history
    rw [← set_set (delivered c copy)]
    have hlog : CallsOk (s.calls.set i (delivered c copy))
        (if c.op = .get then s.log else s.log ++ [⟨i, c.key, c.op⟩]) s.history := by
      split
      · exact hcalls₁
      · rename_i hop
        exact .append (c := delivered c copy) hcalls₁ hc₁ hop
    apply hlog.set hc₁ hgo₂
    intro copy' res' hdone
    have hphase : c.phase = .done copy' res' := hdone
    simp [answer, hphase]
  · intro k
    show ∃ pts, KeyOk k (s.calls.set i _) _ s.history pts
    rw [← set_set (delivered c copy)]
    obtain ⟨pts, hk⟩ := h.keys k
    have hk₁ := hk.set hc hgo (fun hkey _ _ hans => hk.answered hc hkey hans)
    have hnew : ∀ x ∈ pts, x.step.id = i → c.op = .get → x.attempt ≠ copy := by
      intro x hx hid hop heq
      obtain ⟨d, hd, _, _, hget, _⟩ := hk.acts x hx
      rw [hid] at hd
      cases hc.symm.trans hd
      rw [heq] at hget
      exact (hget hop).2 hcopy
    obtain ⟨pts', hk', hans⟩ := hk₁.serve hcalls₁ hc₁ (h.calls.flight hc copy hcopy)
      (not_mem_delivered c copy) hnew hlast
    refine ⟨pts', hk'.set hc₁ hgo₂ (fun hkey copy' res' hans' => ?_)⟩
    by_cases hwait : c.phase = .waiting copy
    · rw [show (answer c copy (register.apply (valueOf c.key s.log) c.op).2) = _ from
        if_pos hwait] at hans'
      cases hans'
      exact hans hkey hwait
    · rw [show (answer c copy (register.apply (valueOf c.key s.log) c.op).2) = _ from
        if_neg hwait] at hans'
      exact hk'.answered hc₁ hkey hans'

/-- A careful event keeps a point for every operation that has acted. -/
theorem Clients.Ok.step {s s' : Clients} {e : ClientEvent} (h : s.Ok)
    (hcareful : s.careful e = true) (hstep : s.step e = some s') : s'.Ok := by
  cases moves_of_step hstep with
  | invoke key op addrs =>
    refine ⟨h.calls.invoke key op addrs, fun k => ?_⟩
    obtain ⟨pts, hk⟩ := h.keys k
    exact ⟨pts, hk.invoke key op addrs⟩
  | turn hc hgo hopen hanswer =>
    refine ⟨h.calls.set hc hgo (fun copy res hdone => absurd hdone (hopen copy res)), fun k => ?_⟩
    obtain ⟨pts, hk⟩ := h.keys k
    refine ⟨pts, hk.set hc hgo (fun _ copy res hans => ?_)⟩
    rw [hanswer] at hans
    cases hans
  | serve hc hcopy => exact h.serve hc hcopy hcareful
  | reply hc hphase =>
    rename_i i copy res c
    have hgo := Clients.GoesOn.phase c (.done copy res)
    obtain ⟨hlt, _⟩ := getElem?_eq_some_iff.mp hc
    have hset : CallsOk (s.calls.set i { c with phase := .done copy res }) s.log s.history := by
      apply h.calls.set hc hgo
      intro copy' res' hdone
      rw [hphase] at hdone
      cases hdone
    have hc' : (s.calls.set i { c with phase := .done copy res })[i]? =
        some { c with phase := .done copy res } := List.getElem?_set_self hlt
    have hreply := hset.reply hc' rfl
    refine ⟨hreply, fun k => ?_⟩
    obtain ⟨pts, hk⟩ := h.keys k
    refine ⟨pts, (hk.set hc hgo (fun hkey copy' res' hans => ?_)).reply c.key i res⟩
    apply hk.answered hc hkey
    rw [hphase]
    exact hans

/-- A write acts once; of the copies of a `GET` the one counts that its reply is from. -/
def counts (calls : List Call) (x : RegisterPoint) : Bool :=
  x.step.op ≠ .get ||
    (calls[x.step.id]?).any (fun c => c.phase = .done x.attempt x.step.res)

theorem KeyOk.linearizable {k : Key} {s : Clients} {pts : List RegisterPoint} (h : s.Ok)
    (hk : KeyOk k s.calls s.log s.history pts) :
    Linearizable register (logOf s.history k) := by
  apply hk.points.linearizable (counts s.calls)
  · intro x hx hnot v
    have hget : x.step.op = .get := by
      by_contra hop
      simp [counts, hop] at hnot
    rw [hget]
    rfl
  · -- two copies of one `GET` cannot both be the one that its reply is from
    apply List.Pairwise.imp_of_mem ?_ (hk.once.filter _)
    intro x y hx hy hxy hid
    obtain ⟨hget, hne⟩ := hxy hid
    have hxget : x.step.op = .get := by
      obtain ⟨c, hc, _, hcop, _⟩ := hk.acts x (mem_of_mem_filter hx)
      obtain ⟨d, hd, _, hdop, _⟩ := hk.acts y (mem_of_mem_filter hy)
      rw [hid] at hc
      cases hc.symm.trans hd
      exact hcop.symm.trans (hdop.trans hget)
    have hxdone := (mem_filter.mp hx).2
    have hydone := (mem_filter.mp hy).2
    simp only [counts, hxget, hget, hid, ne_eq, not_true_eq_false, decide_false, Bool.false_or]
      at hxdone hydone
    obtain ⟨c, hc, hxphase⟩ := (any_eq_true _ _).mp hxdone
    obtain ⟨d, hd, hyphase⟩ := (any_eq_true _ _).mp hydone
    cases hc.symm.trans hd
    have hphase := (of_decide_eq_true hxphase).symm.trans (of_decide_eq_true hyphase)
    exact hne (Phase.done.inj hphase).1
  · intro i res hres
    obtain ⟨c, copy, hc, hkey, hdone⟩ := h.calls.replied (mem_logOf.mp hres)
    have hans : c.phase.answer? = some (copy, res) := by
      rw [hdone]
      rfl
    obtain ⟨x, hx, hid, hxres, hcopy⟩ := hk.answered hc hkey hans
    refine ⟨x, hx, ?_, hid, hxres⟩
    obtain ⟨d, hd, _, hdop, _⟩ := hk.acts x hx
    rw [hid] at hd
    cases hc.symm.trans hd
    by_cases hop : c.op = .get
    · simp [counts, hid, hc, hdone, hcopy hop, hxres]
    · simp [counts, ← hdop, hop]

/-- **Histories of single keys are linearizable**: along every run of any number of calls in which a
copy of a write is executed only while no other call has written the key since the first copy was,
the invocations and replies on every key are those of a register on which every operation acts at
most once, between its invocation and its reply. -/
theorem histories_linearizable {es : List ClientEvent} {s : Clients}
    (hrun : Machine.run Clients.step {} es = some s)
    (hcareful : Machine.Along Clients.step (fun s e => s.careful e = true) {} es) (k : Key) :
    Linearizable register (logOf s.history k) := by
  have hok : s.Ok := Machine.run_induction (fun _ _ _ h hc hstep => h.step hc hstep) .boot
    hcareful hrun
  obtain ⟨pts, hk⟩ := hok.keys k
  exact hk.linearizable hok

/-- A `PUT` whose first round is lost: both copies are executed, then a `GET` reads. -/
def putTwice : List ClientEvent :=
  [.invoke [97] (.put [1]) 3, .send 0, .lost 0, .send 0, .serve 0 0, .serve 0 1, .reply 0,
    .invoke [97] .get 3, .send 1, .serve 1 0, .reply 1]

theorem histories_linearizable_putTwice :
    ∃ s, Machine.run Clients.step {} putTwice = some s ∧
      logOf s.history [97] = [.invoke 0 (.put [1]), .reply 0 .ok, .invoke 1 .get,
        .reply 1 (.value (some [1]))] ∧
      s.log.length = 2 ∧ Linearizable register (logOf s.history [97]) := by
  have hcareful : Machine.Along Clients.step (fun s e => s.careful e = true) {} putTwice := by
    decide +kernel
  obtain ⟨s, hrun, hhist, hlen⟩ : ∃ s, Machine.run Clients.step {} putTwice = some s ∧
      logOf s.history [97] = [.invoke 0 (.put [1]), .reply 0 .ok, .invoke 1 .get,
        .reply 1 (.value (some [1]))] ∧ s.log.length = 2 := by decide +kernel
  exact ⟨s, hrun, hhist, hlen, histories_linearizable hrun hcareful [97]⟩

/-! ## A copy that comes too late. -/

/-- A `GET` that returns the first of two values, each written before the next call began. -/
def staleHistory : List (Act RegisterOp RegisterRes) :=
  [.invoke 0 (.put [1]), .reply 0 .ok, .invoke 1 (.put [2]), .reply 1 .ok, .invoke 2 .get,
    .reply 2 (.value (some [1]))]

theorem staleHistory_not_linearizable : ¬ Linearizable register staleHistory := by
  rintro ⟨xs, hlin⟩
  have hop : ∀ x ∈ xs, (x.id = 0 ∧ x.op = .put [1]) ∨ (x.id = 1 ∧ x.op = .put [2]) ∨
      (x.id = 2 ∧ x.op = .get) := by
    intro x hx
    simpa [staleHistory] using hlin.invoked x hx
  have hprec : Precedes staleHistory 0 1 ∧ Precedes staleHistory 0 2 ∧ Precedes staleHistory 1 2 :=
    ⟨⟨1, 2, _, _, by decide, rfl, rfl⟩, ⟨1, 4, _, _, by decide, rfl, rfl⟩,
      ⟨3, 4, _, _, by decide, rfl, rfl⟩⟩
  -- real time orders the three calls
  have hsorted : xs.Pairwise (fun x y => x.id < y.id) := by
    apply List.Pairwise.imp_of_mem ?_ (hlin.order.and (pairwise_map.mp hlin.once))
    intro x y hx hy ⟨hnot, hne⟩
    rcases hop x hx with ⟨hx, _⟩ | ⟨hx, _⟩ | ⟨hx, _⟩ <;>
      rcases hop y hy with ⟨hy, _⟩ | ⟨hy, _⟩ | ⟨hy, _⟩ <;>
      simp_all
  have hids : xs.map Step.id = [0, 1, 2] := by
    have hperm : (xs.map Step.id).Perm [0, 1, 2] := by
      apply (List.perm_ext_iff_of_nodup hlin.once (by decide)).mpr
      intro id
      constructor
      · intro hid
        obtain ⟨x, hx, rfl⟩ := mem_map.mp hid
        rcases hop x hx with ⟨hx, _⟩ | ⟨hx, _⟩ | ⟨hx, _⟩ <;> simp [hx]
      · intro hid
        have hreplied : ∃ res, Act.reply id res ∈ staleHistory := by
          simp only [mem_cons, not_mem_nil, or_false] at hid
          rcases hid with rfl | rfl | rfl <;> simp [staleHistory]
        obtain ⟨res, hres⟩ := hreplied
        obtain ⟨x, hx, hid, _⟩ := hlin.replied hres
        exact mem_map.mpr ⟨x, hx, hid⟩
    have hlt : (xs.map Step.id).Pairwise (· < ·) := pairwise_map.mpr hsorted
    apply hperm.eq_of_pairwise ?_ hlt (by decide)
    intro a b _ _ hab hba
    exact absurd hba (Nat.lt_asymm hab)
  obtain ⟨a, xs, rfl, ha, hids⟩ := map_eq_cons_iff.mp hids
  obtain ⟨b, xs, rfl, hb, hids⟩ := map_eq_cons_iff.mp hids
  obtain ⟨c, xs, rfl, hc, hids⟩ := map_eq_cons_iff.mp hids
  obtain rfl := List.map_eq_nil_iff.mp hids
  -- the register holds the second value when the `GET` acts
  have hnew : RegisterRes.value (some [2]) = c.res := by
    have hbop : b.op = .put [2] := by simpa [hb] using hop b (by simp)
    have hcop : c.op = .get := by simpa [hc] using hop c (by simp)
    have hlegal := hlin.legal.2.2.1
    rw [hbop, hcop] at hlegal
    exact hlegal
  have hreply : Act.reply 2 (.value (some [1])) ∈ staleHistory := by simp [staleHistory]
  obtain ⟨x, hx, hid, hres⟩ := hlin.replied hreply
  have hxc : x = c := by
    simp only [mem_cons, not_mem_nil, or_false] at hx
    rcases hx with rfl | rfl | rfl
    · omega
    · omega
    · rfl
  rw [hxc, ← hnew] at hres
  cases hres

/-- The first copy of `PUT` "a" 1 is executed after `PUT` "a" 2 has been acknowledged. -/
def lateCopy : List ClientEvent :=
  [.invoke [97] (.put [1]) 3, .send 0, .lost 0, .send 0, .serve 0 1, .reply 0,
    .invoke [97] (.put [2]) 3, .send 1, .serve 1 0, .reply 1, .serve 0 0, .invoke [97] .get 3,
    .send 2, .serve 2 0, .reply 2]

/-- The `GET` that follows returns 1. -/
theorem retried_write_returns :
    ∃ s, Machine.run Clients.step {} lateCopy = some s ∧
      ¬ Linearizable register (logOf s.history [97]) := by
  obtain ⟨s, hrun, hhist⟩ : ∃ s, Machine.run Clients.step {} lateCopy = some s ∧
      logOf s.history [97] = staleHistory := by decide +kernel
  refine ⟨s, hrun, ?_⟩
  rw [hhist]
  exact staleHistory_not_linearizable

end Flotilla.Client
