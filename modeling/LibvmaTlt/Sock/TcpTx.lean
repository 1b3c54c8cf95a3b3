import LibvmaTlt.Lib.CInt
import LibvmaTlt.Lwip.WriteSpec

/-!
# Sending on a TCP socket

`sockinfo_tcp::tx` gathers the user's buffers and passes them to `tcp_write` in pieces as large as the
send buffer has room for. Between two pieces the connection may be reset, the process may be told to
exit, and the wait for room may end without any. The environment of a call is the list of what the call
finds out, one `TxAnswer` for each time it comes to `retry_write`.
-/

namespace LibvmaTlt.Sock

open Lwip (U8 Err)

/-! ## The call -/

inductive Errno where
  | eagain
  | econnreset
  | econnrefused
  | eintr
  | epipe
  deriving DecidableEq

inductive ConnState where
  | connecting
  | connected
  | reseted
  | error
  | other
  deriving DecidableEq

/-- What the call finds at `retry_is_ready`: whether the socket is ready to send, the state of the
connection, and its state after a poll. -/
structure ReadyAnswer where
  isRts : Bool
  connState : ConnState
  polled : ConnState

/-- What the call finds in one turn: the room in the send buffer; if there is none, whether the socket is
ready to send and the room after `tx_wait`; then at `retry_write` whether it is ready, whether the
process exits, and what `tcp_write` returns, which accepts all of a piece or nothing
(`tcpWrite_accepts`). -/
structure TxAnswer where
  sndbuf : Nat
  rtsBefore : Bool := true
  wait : Nat := 0
  isRts : Bool := true
  exit : Bool := false
  write : Err := .ok

/-- The result of a call, with the bytes that `tcp_write` has accepted. -/
structure TxResult where
  ret : Int
  errno : Option Errno := none
  accepted : List U8 := []
  deriving DecidableEq

/-- `total_tx`, and the bytes accepted so far. -/
structure TxState where
  total : Int
  accepted : List U8

def TxState.done (st : TxState) : TxResult := ⟨st.total, none, st.accepted⟩

def TxState.err (st : TxState) (e : Errno) : TxResult := ⟨-1, some e, st.accepted⟩

def TxState.wouldBlock (st : TxState) : TxResult :=
  if st.total > 0 then st.done else st.err .eagain

/-- The size of the next piece, `retry` being the one that is tried again. -/
def TxAnswer.txSize (a : TxAnswer) (block : Bool) (retry : Option Nat) (remaining : Nat)
    (st : TxState) : Except TxResult Nat :=
  match retry with
  | some n => .ok n
  | none =>
    if a.sndbuf = 0 then
      if !a.rtsBefore then .error (st.err .econnreset)
      else if !block then .error st.wouldBlock
      else .ok (min a.wait remaining)
    else .ok (min a.sndbuf remaining)

/-- At `retry_write`: whether the piece was accepted (`true`) or is tried again. -/
def TxAnswer.tryWrite (a : TxAnswer) (block : Bool) (st : TxState) : Except TxResult Bool :=
  if !a.isRts then .error (st.err .econnreset)
  else if a.exit then .error (st.err .eintr)
  else
    match a.write with
    | .ok => .ok true
    | .conn => .error (if st.total > 0 then st.done else st.err .epipe)
    | .mem => if !block then .error st.wouldBlock else .ok false

/-- How the loop over one buffer ends: with the buffer, with the call, or not yet. -/
inductive TxOutcome where
  | next (rest : List TxAnswer) (st : TxState)
  | exit (rest : List TxAnswer) (r : TxResult)
  | waiting

def TxState.accept (st : TxState) (piece : List U8) : TxState :=
  ⟨cInt (st.total + piece.length), st.accepted ++ piece⟩

/-- The loop over one buffer from `pos` on; the position has 32 bits. -/
def txIov (block : Bool) (iov : List U8) :
    List TxAnswer → (retry : Option Nat) → (pos : Nat) → TxState → TxOutcome
  | answers, retry, pos, st =>
    if retry = none ∧ iov.length ≤ pos then .next answers st
    else
      match answers with
      | [] => .waiting
      | a :: rest =>
        match a.txSize block retry (iov.length - pos) st with
        | .error r => .exit rest r
        | .ok size =>
          match a.tryWrite block st with
          | .error r => .exit rest r
          | .ok false => txIov block iov rest (some size) pos st
          | .ok true =>
            txIov block iov rest none (cUint32 (pos + size : Nat))
              (st.accept ((iov.drop pos).take size))

/-- The loop over the buffers; `none` if the call has not returned when the answers are used up. -/
def txIovs (block : Bool) : List (List U8) → List TxAnswer → TxState → Option (TxResult × List TxAnswer)
  | [], answers, st => some (st.done, answers)
  | iov :: iovs, answers, st =>
    match txIov block iov answers none 0 st with
    | .next rest st => txIovs block iovs rest st
    | .exit rest r => some (r, rest)
    | .waiting => none

/-- `retry_is_ready`: no error, or the `errno` of the call. -/
def retryIsReady : List ReadyAnswer → Option (Option Errno)
  | [] => none
  | a :: rest =>
    if a.isRts then some none
    else
      match a.connState with
      | .connecting => if a.polled = .connected then retryIsReady rest else some (some .eagain)
      | .reseted => some (some .econnreset)
      | .error => some (some .econnrefused)
      | _ => some (some .epipe)

/-- `sockinfo_tcp::tx` on an offloaded socket; `dummyOk` says whether a dummy packet may be sent, if it
is one. The answers that are left over are not part of the call. -/
def tx (block : Bool) (iovs : List (List U8)) (ready : List ReadyAnswer) (dummyOk : Bool)
    (answers : List TxAnswer) : Option (TxResult × List TxAnswer) :=
  match retryIsReady ready with
  | none => none
  | some (some e) => some ({ ret := -1, errno := some e }, answers)
  | some none =>
    if !dummyOk then some ({ ret := -1, errno := some .eagain }, answers)
    else txIovs block iovs answers ⟨0, []⟩

/-! ## Truthful results -/

/-- The result tells what was accepted: the first `ret` bytes, or none for −1. -/
def TxResult.Truthful (gathered : List U8) (r : TxResult) : Prop :=
  (0 ≤ r.ret → r.accepted = gathered.take r.ret.toNat ∧ r.ret = r.accepted.length) ∧
    (r.ret = -1 → r.accepted = [])

def TxAnswer.space (a : TxAnswer) : Nat := if a.sndbuf = 0 then a.wait else a.sndbuf

/-- The turn finds the socket no longer ready to send, or the process exiting. A nonblocking call that
finds no room does not look any further. -/
def TxAnswer.aborts (a : TxAnswer) (block fresh : Bool) : Bool :=
  if fresh && a.sndbuf = 0 && !(a.rtsBefore && block) then !a.rtsBefore else !a.isRts || a.exit

/-- The call is cut short: a reset or an exit comes after a write of at least one byte. `retry` says
whether a write is tried again and if so whether of any bytes, `got` whether bytes were accepted. -/
def cutShort (block : Bool) : (retry : Option Bool) → (got : Bool) → List TxAnswer → Bool
  | _, _, [] => false
  | retry, got, a :: rest =>
    if a.aborts block retry.isNone then got
    else
      let bytes := retry.getD (0 < a.space)
      cutShort block (if a.write = .mem then some bytes else none) (got || a.write = .ok && bytes) rest

section Proofs

variable {block : Bool} {a : TxAnswer} {st : TxState} {retry : Option Nat}

def TxState.Counted (st : TxState) : Prop := st.total = st.accepted.length

theorem TxState.Counted.pos_iff (h : st.Counted) : st.total > 0 ↔ st.accepted ≠ [] := by
  rw [h, gt_iff_lt, ← List.length_pos_iff]
  exact Int.natCast_pos

def TxResult.Told (r : TxResult) (cut : Bool) : Prop :=
  (r.ret = r.accepted.length ∧ cut = false) ∨ (r.ret = -1 ∧ cut = !r.accepted.isEmpty)

theorem TxState.Counted.wouldBlock (h : st.Counted) : st.wouldBlock.Told false := by
  unfold TxState.wouldBlock
  split
  · exact .inl ⟨h, rfl⟩
  rename_i hz
  have hnil : st.accepted = [] := by
    by_contra hne
    exact hz (h.pos_iff.mpr hne)
  exact .inr ⟨rfl, by simp [TxState.err, hnil]⟩

/-- The bytes are accepted so far, as the scan of the answers sees it. -/
abbrev TxState.got (st : TxState) : Bool := !st.accepted.isEmpty

/-- Whether a write is tried again, as the scan sees it. -/
abbrev retryBytes (retry : Option Nat) : Option Bool := retry.map fun n => decide (0 < n)

theorem txSize_error {remaining : Nat} {r : TxResult} (h : st.Counted)
    (hr : a.txSize block retry remaining st = .error r) :
    r.accepted = st.accepted ∧ r.Told (cutShort block (retryBytes retry) st.got [a]) := by
  unfold TxAnswer.txSize at hr
  cases retry with
  | some n => cases hr
  | none =>
    simp only at hr
    split at hr
    · rename_i hz
      split at hr
      · -- reset
        rename_i hrts
        cases hr
        have hrts' : a.rtsBefore = false := by simpa using hrts
        exact ⟨rfl, .inr ⟨rfl, by simp [cutShort, TxAnswer.aborts, hz, hrts', TxState.err]⟩⟩
      · rename_i hrts
        split at hr
        · rename_i hb
          cases hr
          have hrts' : a.rtsBefore = true := by simpa using hrts
          have hb' : block = false := by simpa using hb
          refine ⟨?_, ?_⟩
          · unfold TxState.wouldBlock
            split <;> rfl
          · simpa [cutShort, TxAnswer.aborts, hz, hrts', hb'] using h.wouldBlock
        · cases hr
    · cases hr

theorem txSize_ok {remaining size : Nat} (hrem : retry = none → 0 < remaining)
    (hretry : ∀ n ∈ retry, n ≤ remaining) (hr : a.txSize block retry remaining st = .ok size) :
    size ≤ remaining ∧ (retryBytes retry).getD (decide (0 < a.space)) = decide (0 < size) ∧
      a.aborts block (retryBytes retry).isNone = (!a.isRts || a.exit) := by
  unfold TxAnswer.txSize at hr
  cases retry with
  | some n =>
    cases hr
    exact ⟨hretry size rfl, rfl, by simp [TxAnswer.aborts]⟩
  | none =>
    have hpos := hrem rfl
    simp only at hr
    split at hr
    · rename_i hz
      split at hr
      · cases hr
      rename_i hrts
      split at hr
      · cases hr
      rename_i hb
      cases hr
      have hrts' : a.rtsBefore = true := by simpa using hrts
      have hb' : block = true := by simpa using hb
      refine ⟨Nat.min_le_right _ _, ?_, by simp [TxAnswer.aborts, hrts', hb']⟩
      simp only [Option.map_none, Option.getD_none, TxAnswer.space, if_pos hz]
      rw [decide_eq_decide]
      omega
    · rename_i hz
      cases hr
      refine ⟨Nat.min_le_right _ _, ?_, by simp [TxAnswer.aborts, hz]⟩
      simp only [Option.map_none, Option.getD_none, TxAnswer.space, if_neg hz]
      rw [decide_eq_decide]
      omega

theorem tryWrite_error {retry' : Option Bool} {r : TxResult} (h : st.Counted)
    (hab : a.aborts block retry'.isNone = (!a.isRts || a.exit))
    (hr : a.tryWrite block st = .error r) :
    r.accepted = st.accepted ∧ r.Told (cutShort block retry' st.got [a]) := by
  unfold TxAnswer.tryWrite at hr
  split at hr
  · rename_i hrts
    cases hr
    have hrts' : a.isRts = false := by simpa using hrts
    exact ⟨rfl, .inr ⟨rfl, by simp [cutShort, hab, hrts', TxState.err]⟩⟩
  · rename_i hrts
    have hrts' : a.isRts = true := by simpa using hrts
    split at hr
    · rename_i hex
      cases hr
      exact ⟨rfl, .inr ⟨rfl, by simp [cutShort, hab, hex, TxState.err]⟩⟩
    rename_i hex
    have hcut : cutShort block retry' st.got [a] = false := by
      simp [cutShort, hab, hrts', hex]
    rw [hcut]
    split at hr
    · cases hr
    · cases hr
      split
      · exact ⟨rfl, .inl ⟨h, rfl⟩⟩
      rename_i hz
      have hnil : st.accepted = [] := by
        by_contra hne
        exact hz (h.pos_iff.mpr hne)
      exact ⟨rfl, .inr ⟨rfl, by simp [TxState.err, hnil]⟩⟩
    · split at hr
      · cases hr
        refine ⟨?_, h.wouldBlock⟩
        unfold TxState.wouldBlock
        split <;> rfl
      · cases hr

theorem tryWrite_ok {b : Bool} (hr : a.tryWrite block st = .ok b) :
    (!a.isRts || a.exit) = false ∧ a.write = (if b then .ok else .mem) := by
  unfold TxAnswer.tryWrite at hr
  split at hr
  · cases hr
  rename_i hrts
  split at hr
  · cases hr
  rename_i hex
  refine ⟨by simpa [hex] using hrts, ?_⟩
  split at hr
  · rename_i hw
    cases hr
    exact hw
  · cases hr
  · rename_i hw
    split at hr
    · cases hr
    · cases hr
      exact hw

theorem TxState.Counted.accept (h : st.Counted) {piece : List U8}
    (hlen : st.accepted.length + piece.length < 2147483648) : (st.accept piece).Counted := by
  unfold TxState.Counted TxState.accept at *
  simp only [List.length_append]
  rw [h, cInt_of_lt] <;> omega

theorem got_accept (st : TxState) (piece : List U8) :
    (st.accept piece).got = (st.got || decide (0 < piece.length)) := by
  unfold TxState.got TxState.accept
  cases st.accepted <;> cases piece <;> simp

/-- How the loop over a buffer may end, `whole` being what is accepted when the buffer is through, and
`cut` what the scan of the answers says. -/
def TxOutcome.Fits (block : Bool) (whole : List U8) (cut : Bool) : TxOutcome → Prop
  | .next rest st => st.Counted ∧ st.accepted = whole ∧ cut = cutShort block none st.got rest
  | .exit rest r => r.accepted <+: whole ∧ (rest = [] → r.Told cut)
  | .waiting => True

theorem txIov_spec {iov acc : List U8} {answers : List TxAnswer} {pos : Nat} (h : st.Counted)
    (hacc : st.accepted = acc ++ iov.take pos) (hpos : pos ≤ iov.length)
    (hlen : acc.length + iov.length < 2147483648)
    (hretry : ∀ n ∈ retry, n ≤ iov.length - pos) :
    (txIov block iov answers retry pos st).Fits block (acc ++ iov)
      (cutShort block (retryBytes retry) st.got answers) := by
  induction answers generalizing retry pos st with
  | nil =>
    unfold txIov
    by_cases hend : retry = none ∧ iov.length ≤ pos
    · rw [if_pos hend]
      rw [List.take_of_length_le hend.2] at hacc
      exact ⟨h, hacc, by rw [hend.1]; rfl⟩
    · rw [if_neg hend]
      trivial
  | cons a rest ih =>
    have hprefix : st.accepted <+: acc ++ iov := by
      rw [hacc]
      exact (List.prefix_append_right_inj acc).mpr (List.take_prefix pos iov)
    unfold txIov
    by_cases hend : retry = none ∧ iov.length ≤ pos
    · rw [if_pos hend]
      rw [List.take_of_length_le hend.2] at hacc
      exact ⟨h, hacc, by rw [hend.1]; rfl⟩
    rw [if_neg hend]
    have hrem : retry = none → 0 < iov.length - pos := fun hn => by
      have hlt : ¬ iov.length ≤ pos := fun hle => hend ⟨hn, hle⟩
      omega
    cases hsize : a.txSize block retry (iov.length - pos) st with
    | error r =>
      obtain ⟨hr, htold⟩ := txSize_error h hsize
      simp only [hsize]
      refine ⟨hr ▸ hprefix, ?_⟩
      rintro rfl
      exact htold
    | ok size =>
      obtain ⟨hle, hbytes, hab⟩ := txSize_ok hrem hretry hsize
      cases hwrite : a.tryWrite block st with
      | error r =>
        obtain ⟨hr, htold⟩ := tryWrite_error h hab hwrite
        simp only [hsize, hwrite]
        refine ⟨hr ▸ hprefix, ?_⟩
        rintro rfl
        exact htold
      | ok b =>
        obtain ⟨hgo, hw⟩ := tryWrite_ok hwrite
        have hcut : cutShort block (retryBytes retry) st.got (a :: rest) =
            cutShort block (if b then none else some (decide (0 < size)))
              (st.got || b && decide (0 < size)) rest := by
          rw [cutShort, hab, hgo, hbytes, hw]
          cases b <;> simp
        rw [hcut]
        cases b with
        | false =>
          simp only [hsize, hwrite, Bool.false_eq_true, if_false, Bool.false_and, Bool.or_false]
          exact @ih st (some size) pos h hacc hpos (by rintro n ⟨⟩; exact hle)
        | true =>
          -- the piece is accepted
          have hpiece : ((iov.drop pos).take size).length = size := by
            rw [List.length_take, List.length_drop]
            omega
          have hpos' : cUint32 (pos + size : Nat) = pos + size := cUint32_of_lt (by omega)
          have hacclen : st.accepted.length = acc.length + pos := by
            rw [hacc, List.length_append, List.length_take_of_le hpos]
          have hgot := got_accept st ((iov.drop pos).take size)
          rw [hpiece] at hgot
          simp only [hsize, hwrite, if_true, Bool.true_and, hpos', ← hgot]
          refine @ih _ none _ (h.accept (by rw [hpiece]; omega)) ?_ (by omega) (by simp)
          show st.accepted ++ _ = _
          rw [hacc, List.append_assoc, List.take_add]

theorem txIovs_spec {iovs : List (List U8)} {acc : List U8} {answers : List TxAnswer} {r : TxResult}
    (h : st.Counted) (hacc : st.accepted = acc) (hlen : acc.length + iovs.flatten.length < 2147483648)
    (hr : txIovs block iovs answers st = some (r, [])) :
    r.accepted <+: acc ++ iovs.flatten ∧ r.Told (cutShort block none st.got answers) := by
  induction iovs generalizing st acc answers with
  | nil =>
    unfold txIovs at hr
    cases hr
    refine ⟨?_, .inl ⟨h, rfl⟩⟩
    simp [TxState.done, hacc]
  | cons iov iovs ih =>
    rw [List.flatten_cons, List.length_append] at hlen
    have hspec := @txIov_spec block st none iov acc answers 0 h (by simp [hacc]) (Nat.zero_le _)
      (by omega) (by simp)
    unfold txIovs at hr
    rw [List.flatten_cons, ← List.append_assoc]
    split at hr
    · rename_i rest st' heq
      rw [heq] at hspec
      obtain ⟨h', hacc', hcut⟩ := hspec
      obtain ⟨hp, ht⟩ := ih h' hacc' (by rw [List.length_append]; omega) hr
      exact ⟨hp, by rw [show retryBytes none = none from rfl] at hcut; rw [hcut]; exact ht⟩
    · rename_i rest r' heq
      rw [heq] at hspec
      cases hr
      exact ⟨hspec.1.trans (List.prefix_append _ _), hspec.2 rfl⟩
    · cases hr

theorem TxResult.Told.truthful_iff {r : TxResult} {cut : Bool} {gathered : List U8}
    (ht : r.Told cut) (hp : r.accepted <+: gathered) : r.Truthful gathered ↔ cut = false := by
  unfold TxResult.Truthful
  rcases ht with ⟨hret, hcut⟩ | ⟨hret, hcut⟩
  · refine ⟨fun _ => hcut, fun _ => ⟨fun _ => ⟨?_, hret⟩, fun hneg => ?_⟩⟩
    · rw [hret, Int.toNat_natCast]
      exact List.prefix_iff_eq_take.mp hp
    · omega
  · rw [hcut, Bool.not_eq_false']
    refine ⟨fun h => ?_, fun h => ⟨fun h0 => ?_, fun _ => ?_⟩⟩
    · simp [h.2 hret]
    · omega
    · simpa using h

end Proofs

/-- For gathered data of less than 2 GiB, a call that returns is truthful exactly if it was not cut
short: no reset and no exit of the process came after bytes had been accepted. -/
theorem tx_truthful_iff {block dummyOk : Bool} {iovs : List (List U8)} {ready : List ReadyAnswer}
    {answers : List TxAnswer} {r : TxResult} (hlen : iovs.flatten.length < 2147483648)
    (hr : tx block iovs ready dummyOk answers = some (r, [])) :
    r.Truthful iovs.flatten ↔ cutShort block none false answers = false := by
  unfold tx at hr
  split at hr
  · cases hr
  · cases hr
    simp [TxResult.Truthful, cutShort]
  split at hr
  · cases hr
    simp [TxResult.Truthful, cutShort]
  · obtain ⟨hp, ht⟩ := @txIovs_spec block ⟨0, []⟩ iovs [] answers r rfl rfl (by simpa using hlen) hr
    rw [List.nil_append] at hp
    exact ht.truthful_iff hp

/-- Two buffers on a ready, nonblocking socket: the first fits the send buffer, the second only in
part. -/
theorem tx_truthful_partial :
    TxResult.Truthful [1, 2, 3, 4] ⟨3, none, [1, 2, 3]⟩ :=
  (@tx_truthful_iff false true [[1, 2], [3, 4]] [⟨true, .connected, .connected⟩]
    [{ sndbuf := 3 }, { sndbuf := 1 }, { sndbuf := 0 }] ⟨3, none, [1, 2, 3]⟩
    (by decide) rfl).mpr (by decide)

/-- The connection is reset after the first buffer: the call returns −1, and two bytes are queued. -/
theorem tx_reset_partial :
    tx true [[1, 2], [3, 4]] [⟨true, .connected, .connected⟩] true
        [{ sndbuf := 2 }, { sndbuf := 0, rtsBefore := false }] =
      some (⟨-1, some .econnreset, [1, 2]⟩, []) ∧
    ¬ TxResult.Truthful [1, 2, 3, 4] ⟨-1, some .econnreset, [1, 2]⟩ := by
  refine ⟨rfl, fun h => ?_⟩
  cases h.2 rfl

end LibvmaTlt.Sock
