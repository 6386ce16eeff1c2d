import Xv6.Lib.Ring
import Xv6.Monitor.Data

/-!
# The transmit ring of the UART

`uartputc`, `uartstart` and `uartintr` of `uart.c`: the spinlock is `uart_tx_lock`, the wait channel is
`&uart_tx_r`. The device sets the bit `LSR_TX_IDLE` as it likes, and `panicked` may be set at any time.
-/

namespace Xv6.Uart

open Function Monitor

abbrev UART_TX_BUF_SIZE : Nat := 32

/-- The buffer and its counters, the bytes written to `THR` and those that `uartputc` has enqueued. -/
structure Data where
  buf : Nat → UInt8
  w : BitVec 64
  r : BitVec 64
  sent : List UInt8
  enqueued : List UInt8

/-- `uart_tx_w == uart_tx_r + UART_TX_BUF_SIZE` -/
def Data.full (d : Data) : Prop := d.w = d.r + BitVec.ofNat 64 UART_TX_BUF_SIZE

instance (d : Data) : Decidable d.full := inferInstanceAs (Decidable (_ = _))

/-- `uart_tx_buf[uart_tx_w % UART_TX_BUF_SIZE] = c; uart_tx_w += 1` -/
def Data.put (d : Data) (c : UInt8) : Data :=
  { d with
    buf := update d.buf (d.w.toNat % UART_TX_BUF_SIZE) c
    w := d.w + 1
    enqueued := d.enqueued ++ [c] }

/-- `uart_tx_buf[uart_tx_r % UART_TX_BUF_SIZE]` -/
def Data.front (d : Data) : UInt8 := d.buf (d.r.toNat % UART_TX_BUF_SIZE)

inductive Call where
  | uartputc (c : UInt8)
  | uartintr
  deriving DecidableEq

/-- The statements with `uart_tx_lock` held. -/
inductive Local where
  /-- `if(panicked)` -/
  | test (c : UInt8)
  /-- `for(;;)` -/
  | spin
  /-- `while(uart_tx_w == uart_tx_r + UART_TX_BUF_SIZE)` and the store behind it -/
  | put (c : UInt8)
  /-- the loop of `uartstart`, and the release behind it -/
  | start
  /-- `WriteReg(THR, c)` -/
  | send (c : UInt8)
  deriving DecidableEq

/-- What a step may find: the bit `LSR_TX_IDLE`, and `panicked`. -/
structure Input where
  idle : Bool
  panicked : Bool
  deriving DecidableEq

/-- Processes call `uartputc`, interrupt handlers `uartintr`. -/
def code (n : Nat) : Code n Data Local Call Unit Input where
  calls k _ x := match k, x with
    | .proc _, .uartputc _ => true
    | .proc _, .uartintr => false
    | _, .uartputc _ => false
    | _, .uartintr => true
  start _ x := match x with
    | .uartputc c => .test c
    | .uartintr => .start
  body _ _ i d l := some <| match l with
    | .test c => .go d (if i.panicked then .spin else .put c)
    | .spin => .go d .spin
    | .put c => if d.full then .wait (.put c) else .go (d.put c) .start
    | .start =>
      if d.w = d.r ∨ i.idle = false then .leave d () else .wake { d with r := d.r + 1 } (.send d.front)
    | .send c => .go { d with sent := d.sent ++ [c] } .start

abbrev Machine (n : Nat) := State n Data Local Call Unit

/-- The driver after `uartinit`; `buf` is what the buffer has. -/
def boot (n : Nat) (buf : Nat → UInt8) : Machine n where
  data := ⟨buf, 0, 0, [], []⟩
  lock := none
  proc _ := { Proc.zero with state := .RUNNING }
  plock _ := false
  pos _ := .out ()

/-! ### The code -/

variable {n : Nat} {d d' : Data} {k : Thread n} {x : Option (Proc n)} {i : Input} {l l' : Local}

/-- What a step with `uart_tx_lock` held can do. -/
inductive Does (d : Data) : Local → Outcome Data Local Unit → Prop
  | test (c) (b : Bool) : Does d (.test c) (.go d (if b then .spin else .put c))
  | spin : Does d .spin (.go d .spin)
  | wait (c) : d.full → Does d (.put c) (.wait (.put c))
  | put (c) : ¬ d.full → Does d (.put c) (.go (d.put c) .start)
  | leave : Does d .start (.leave d ())
  | take : d.w ≠ d.r → Does d .start (.wake { d with r := d.r + 1 } (.send d.front))
  | send (c) : Does d (.send c) (.go { d with sent := d.sent ++ [c] } .start)

theorem body_does {o : Outcome Data Local Unit} (h : (code n).body k x i d l = some o) : Does d l o := by
  simp only [code, Option.some.injEq] at h
  subst h
  cases l with
  | test c => exact .test c i.panicked
  | spin => exact .spin
  | put c =>
    dsimp only
    by_cases hfull : d.full
    · rw [if_pos hfull]
      exact .wait c hfull
    · rw [if_neg hfull]
      exact .put c hfull
  | start =>
    by_cases hend : d.w = d.r ∨ i.idle = false
    · rw [if_pos hend]
      exact .leave
    · rw [if_neg hend]
      exact .take fun h => hend (Or.inl h)
  | send c => exact .send c

theorem code_wakes : (code n).Wakes Data.full := by
  refine ⟨fun k x i d l l' h => ?_, fun k x i d l d' l' h hfull => ?_, fun k x i d l d' st h hfull => ?_⟩
  · cases body_does h with
    | wait c hfull => exact hfull
  · cases body_does h with
    | test | spin | send => exact hfull
    | put c hnot => exact absurd hfull hnot
  · cases body_does h with
    | leave => exact hfull

/-! ### The ring -/

/-- The bytes in the buffer, the oldest first. -/
def Data.buffered (d : Data) : List UInt8 := Ring.between UART_TX_BUF_SIZE d.buf d.r d.w

/-- The byte that `uartstart` has taken and not yet written. -/
def inFlight : Option Local → List UInt8
  | some (.send c) => [c]
  | _ => []

@[simp] theorem inFlight_none : inFlight none = [] := rfl

@[simp] theorem inFlight_start : inFlight (some .start) = [] := rfl

@[simp] theorem inFlight_send {c : UInt8} : inFlight (some (.send c)) = [c] := rfl

/-- The bytes written to `THR`, the one in flight and those in the buffer are what was enqueued. -/
structure Fifo (l : Option Local) (d : Data) : Prop where
  bytes : d.sent ++ inFlight l ++ d.buffered = d.enqueued
  count : (d.w - d.r).toNat ≤ UART_TX_BUF_SIZE

theorem full_iff : d.full ↔ (d.w - d.r).toNat = UART_TX_BUF_SIZE := by
  simp only [Data.full, UART_TX_BUF_SIZE, ← BitVec.toNat_inj, BitVec.toNat_add, BitVec.toNat_sub,
    BitVec.toNat_ofNat]
  omega

theorem Fifo.put (h : Fifo (some l) d) (hl : inFlight (some l) = []) (hfull : ¬ d.full) (c : UInt8) :
    Fifo (some .start) (d.put c) := by
  have hlt : (d.w - d.r).toNat < UART_TX_BUF_SIZE := lt_of_le_of_ne h.count (hfull ∘ full_iff.mpr)
  refine ⟨?_, ?_⟩
  · have hpush : (d.put c).buffered = d.buffered ++ [c] :=
      Ring.between_push_write (by decide) (by decide) (by rwa [Ring.length_between])
    have hbytes := h.bytes
    rw [hl, List.append_nil] at hbytes
    rw [hpush, inFlight_start, List.append_nil, ← List.append_assoc]
    exact congrArg (· ++ [c]) hbytes
  · show (d.w + 1 - d.r).toNat ≤ _
    have hsmall : UART_TX_BUF_SIZE < 2 ^ 64 - 1 := by decide
    rw [Ring.toNat_sub_succ (by omega)]
    exact hlt

theorem Fifo.take (h : Fifo (some .start) d) (hne : d.w ≠ d.r) :
    Fifo (some (.send d.front)) { d with r := d.r + 1 } := by
  have hpred := Ring.toNat_sub_pred (Ne.symm hne)
  refine ⟨?_, ?_⟩
  · have hbytes := h.bytes
    rw [inFlight_start, List.append_nil, Data.buffered, Ring.between_pop (by decide) (Ne.symm hne)] at hbytes
    rw [List.append_assoc]
    exact hbytes
  · have hcount := h.count
    show (d.w - (d.r + 1)).toNat ≤ _
    omega

theorem code_keeps : (code n).Keeps Fifo := by
  refine ⟨fun st x d h => ?_, fun k x i d l d' l' hb h => ?_, fun k x i d l d' l' hb h => ?_,
    fun k x i d l l' hb h => ?_, fun k x i d l l' d' hb h => ?_, fun k x i d l d' st hb h => ?_⟩
  · cases x <;> exact ⟨h.bytes, h.count⟩
  · cases body_does hb with
    | test c b => cases b <;> exact ⟨h.bytes, h.count⟩
    | spin => exact h
    | put c hfull => exact h.put rfl hfull c
    | send c =>
      refine ⟨?_, h.count⟩
      have hbytes := h.bytes
      rw [inFlight_start, List.append_nil]
      exact hbytes
  · cases body_does hb with
    | take hne => exact h.take hne
  · cases body_does hb with
    | wait => exact ⟨h.bytes, h.count⟩
  · cases body_does hb with
    | wait => exact ⟨h.bytes, h.count⟩
  · cases body_does hb with
    | leave => exact ⟨h.bytes, h.count⟩

/-! ### The bytes of a call -/

section Calls

variable {s t : Machine n} {a : Act n Call Input} {c : UInt8} {l : List UInt8}

/-- Where a `uartputc(c)` that has enqueued `l` may be with `uart_tx_lock` held. -/
def Local.Put (c : UInt8) (l : List UInt8) : Local → Prop
  | .test b | .put b => b = c ∧ l = []
  | .spin => True
  | .start | .send _ => l = [c]

def PutAt (c : UInt8) (l : List UInt8) : Pos Local Call Unit → Prop
  | .out _ => l = [c]
  | .enter _ x => x = .uartputc c ∧ l = []
  | .body m | .wakeup _ m | .sleep m | .sleepHeld m | .sleepSet m | .asleep m | .relock m => m.Put c l

theorem PutAt.step (hl : PutAt c l (s.pos k)) (hcall : ∀ x, a ≠ .call k x) (h : Step (code n) s a t) :
    PutAt c (l ++ if a.isOf k then t.data.enqueued.drop s.data.enqueued.length else []) (t.pos k) := by
  by_cases ha : a.isOf k = true
  · rw [if_pos ha]
    cases a with
    | call | kill => cases ha
    | step k' i =>
      obtain rfl := of_decide_eq_true ha
      cases h with
      | enter _ _ st x _ hpos =>
        rw [hpos] at hl
        obtain ⟨rfl, rfl⟩ := hl
        simp [PutAt, Local.Put, State.goto, code]
      | go _ _ m d m' _ hpos hbody =>
        rw [hpos] at hl
        cases body_does hbody with
        | test b panicked => cases panicked <;> simp_all [PutAt, Local.Put, State.goto]
        | put b =>
          obtain ⟨rfl, rfl⟩ := hl
          simp [PutAt, Local.Put, State.goto, Data.put]
        | _ => simp_all [PutAt, Local.Put, State.goto]
      | wake _ _ _ _ _ _ hpos hbody | wait _ _ _ _ _ hpos hbody | leave _ _ _ _ _ _ hpos hbody =>
        rw [hpos] at hl
        cases body_does hbody
        simpa [PutAt, Local.Put, State.goto] using hl
      | _ =>
        rw [‹s.pos _ = _›] at hl
        simpa [PutAt, State.goto, State.setProc, State.setPlock] using hl
  · rw [if_neg ha, List.append_nil, h.pos_of_ne (by simpa using ha) hcall]
    exact hl

theorem put_once {u v : Machine n} {post : List (Act n Call Input)}
    (hcall : Monitor.step (code n) v (.call k (.uartputc c)) = some u)
    (hrun : Run.exec (Monitor.step (code n)) u post = some s) (hpost : ∀ x, .call k x ∉ post)
    (hs : s.pos k = .out ()) :
    Run.adds (Monitor.step (code n)) (·.data.enqueued) (·.isOf k) u post = [c] := by
  have hu : PutAt c [] (u.pos k) := by
    cases step_cases hcall
    simp [PutAt, State.goto]
  have hout := Run.exec_adds (I := fun s l => PutAt c l (s.pos k))
    (fun _ _ _ _ hl hG h => hl.step hG (step_cases h)) hrun
    (Run.along_of_forall fun a ha _ x heq => hpost x (heq ▸ ha)) hu
  rw [hs] at hout
  exact hout

theorem enqueued_grows (h : Step (code n) s a t) : s.data.enqueued <+: t.data.enqueued := by
  cases h with
  | go _ _ _ _ _ _ _ hbody | wake _ _ _ _ _ _ _ hbody | leave _ _ _ _ _ _ _ hbody =>
    cases body_does hbody <;> simp [State.goto, Data.put]
  | _ => exact List.prefix_rfl

end Calls

/-- The ring in one state. -/
structure UartOk (s : Machine n) : Prop where
  /-- no byte is lost, doubled or out of order -/
  fifo : s.data.sent ++ inFlight s.code ++ s.data.buffered = s.data.enqueued
  /-- `uart_tx_w - uart_tx_r` is at most `UART_TX_BUF_SIZE` -/
  count : (s.data.w - s.data.r).toNat ≤ UART_TX_BUF_SIZE
  /-- while `uart_tx_lock` is free, no byte is in flight -/
  settled : s.lock = none → s.data.sent ++ s.data.buffered = s.data.enqueued
  /-- while `uart_tx_lock` is free, processes sleep only on a full buffer -/
  asleep : s.lock = none → ∀ p, (s.proc p).state = .SLEEPING ∧ (s.proc p).chan = chan → s.data.full
  /-- the next step only adds to what was enqueued -/
  grows : ∀ a t, Monitor.step (code n) s a = some t → s.data.enqueued <+: t.data.enqueued
  /-- a `uartputc(c)` that has returned has enqueued `c`, once -/
  calls : ∀ v u k c post, Monitor.step (code n) v (.call k (.uartputc c)) = some u →
    Run.exec (Monitor.step (code n)) u post = some s → (∀ x, .call k x ∉ post) → s.pos k = .out () →
    Run.adds (Monitor.step (code n)) (·.data.enqueued) (·.isOf k) u post = [c]

/-- **The transmit ring is FIFO**: for any number of processes, any interleaving with the interrupt handlers and
any answers of the device. -/
theorem uart_fifo (buf : Nat → UInt8) (as : List (Act n Call Input)) (s : Machine n)
    (hrun : Run.exec (Monitor.step (code n)) (boot n buf) as = some s) : UartOk s := by
  have hrest : AtRest (boot n buf) := ⟨rfl, fun _ => rfl, fun _ => rfl, fun _ => rfl⟩
  have hboot : Fifo none (boot n buf).data := by
    constructor <;> simp [boot, Data.buffered, Ring.between]
  have hfifo := (dataInv_run code_wakes code_keeps hrest hboot hrun).data
  refine ⟨hfifo.bytes, hfifo.count, fun hfree => ?_, fun hfree p hp => ?_,
    fun a t h => enqueued_grows (step_cases h), fun v u k c post => put_once⟩
  · have hbytes := hfifo.bytes
    rwa [code_free hfree, inFlight_none, List.append_nil] at hbytes
  · by_contra hfull
    exact (inv_run code_wakes hrest hrun).none_asleep hfree hfull hp.1

/-- Two processes enqueue a byte each while the device is busy; an interrupt then sends both. -/
def busyRun : List (Act 2 Call Input) :=
  .call (.proc 0) (.uartputc 104) :: List.replicate 4 (.step (.proc 0) ⟨false, false⟩) ++
    .call (.proc 1) (.uartputc 105) :: List.replicate 4 (.step (.proc 1) ⟨false, false⟩) ++
    .call (.idle 0) .uartintr :: List.replicate 12 (.step (.idle 0) ⟨true, false⟩)

theorem uart_fifo_busyRun : ∃ s, Run.exec (Monitor.step (code 2)) (boot 2 fun _ => 0) busyRun = some s ∧
    s.data.sent = [104, 105] ∧ UartOk s := by
  have hrun : (Run.exec (Monitor.step (code 2)) (boot 2 fun _ => 0) busyRun).map (fun s => s.data.sent) =
      some [104, 105] := by decide +kernel
  obtain ⟨s, hs, hsent⟩ := Option.map_eq_some_iff.mp hrun
  exact ⟨s, hs, hsent, uart_fifo _ busyRun s hs⟩

end Xv6.Uart
