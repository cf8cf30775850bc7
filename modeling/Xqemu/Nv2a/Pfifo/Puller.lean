import Xqemu.Nv2a.Pfifo.Pusher

/-!
# The CACHE1 puller

One iteration of the `while (true)` loop of `pfifo_run_puller`: read the pair
at `GET`, advance `GET`, set LOW_MARK when it meets `PUT`, clear HIGH_MARK, and
hand the method to PGRAPH.  Method 0 binds an object to a subchannel through
RAMHT; methods in `[0x180, 0x200)` take an object handle that RAMHT turns into
an instance address.  The call into PGRAPH happens with `pfifo.lock` dropped,
after every register write of the iteration, so the model returns it as data.
-/

namespace Xqemu.Nv2a.Pfifo

open Xqemu.Bits Xqemu.Memory

/-- The PGRAPH work one puller iteration performs, in order: an optional
`pgraph_context_switch(d, channel_id)`, then `pgraph_method`. -/
structure PgraphCall where
  contextSwitch : Option Nat
  subchannel : Nat
  method : Nat
  parameter : Nat
  deriving DecidableEq, Repr

/-- How one iteration of the puller's loop ends. -/
inductive PullIter
  /-- PULL0 access is off, or CACHE1 is empty: the loop is left. -/
  | stop
  /-- The pair `(method_entry, parameter)` read at `GET` and the PGRAPH call made for it. -/
  | pulled (r : Regs) (entry : Nat × Nat) (call : PgraphCall)
  | fault

/-- The CACHE1 half of a puller iteration: advance `get`, set LOW_MARK when it
meets `put`, clear HIGH_MARK. -/
def cache1Pull (r : Regs) : Regs :=
  let newGet := nextSlot r.get
  let r := { r with get := newGet }
  let r := if newGet = r.put then { r with status := r.status ||| nvPfifoCache1StatusLowMark }
    else r
  if r.status &&& nvPfifoCache1StatusHighMark ≠ 0 then
    { r with status := clearMask r.status nvPfifoCache1StatusHighMark }
  else r

theorem cache1Pull_frame (r : Regs) :
    cache1Pull r = { r with get := (cache1Pull r).get, status := (cache1Pull r).status } := by
  unfold cache1Pull
  dsimp only
  split_ifs <;> rfl

/-- The parameter `pgraph_method` receives: for the methods that take
objects, `[0x180, 0x200)`, the RAMHT instance of the handle (the entry must be
valid); otherwise the parameter itself. -/
def pullerParameter (ramin : Mem) (r : Regs) (method parameter : Nat) : Option Nat :=
  if method ≥ 0x180 ∧ method < 0x200 then
    match ramhtLookup ramin r parameter with
    | some entry => if entry.valid then some entry.objInstance else none
    | none => none
  else some parameter

/-- The dispatch half of a puller iteration, after the CACHE1 update. -/
def pullerDispatch (ramin : Mem) (r : Regs) (methodEntry parameter : Nat) :
    Option (Regs × PgraphCall) :=
  let method := methodEntry &&& 0x1FFC
  let subchannel := nvPfifoCache1MethodSubchannel.get methodEntry
  if method = 0 then
    match ramhtLookup ramin r parameter with
    | some entry =>
        if entry.valid ∧ entry.engine = engineGraphics ∧ subchannel < 8 then
          let r := { r with engine := (cache1EngineField subchannel).set r.engine entry.engine }
          let r := { r with pull1 := nvPfifoCache1Pull1Engine.set r.pull1 entry.engine }
          some (r, ⟨some entry.channelId, subchannel, 0, entry.objInstance⟩)
        else none
    | none => none
  else if method ≥ 0x100 then
    match pullerParameter ramin r method parameter with
    | some parameter =>
        let engine := (cache1EngineField subchannel).get r.engine
        if engine = engineGraphics then
          some ({ r with pull1 := nvPfifoCache1Pull1Engine.set r.pull1 engine },
            ⟨none, subchannel, method, parameter⟩)
        else none
    | none => none
  else none

/-- Binding an object or forwarding a method writes only `ENGINE` and `PULL1`. -/
theorem pullerDispatch_frame {ramin : Mem} {r r' : Regs} {methodEntry parameter : Nat}
    {call : PgraphCall} (h : pullerDispatch ramin r methodEntry parameter = some (r', call)) :
    r' = { r with engine := r'.engine, pull1 := r'.pull1 } := by
  unfold pullerDispatch at h
  dsimp only at h
  split at h
  · split at h
    · split at h
      · cases h
        rfl
      · cases h
    · cases h
  · split at h
    · split at h
      · split at h
        · cases h
          rfl
        · cases h
      · cases h
    · cases h

/-- One iteration of the loop of `pfifo_run_puller`. -/
def pullerIter (ramin : Mem) (r : Regs) : PullIter :=
  if nvPfifoCache1Pull0Access.get r.pull0 = 0 then .stop
  else if r.status &&& nvPfifoCache1StatusLowMark ≠ 0 then .stop
  else if r.get < 128 * 4 ∧ r.get % 4 = 0 then
    let methodEntry := r.cache1Method r.get
    let parameter := r.cache1Data r.get
    match pullerDispatch ramin (cache1Pull r) methodEntry parameter with
    | none => .fault
    | some (r', call) => .pulled r' (methodEntry, parameter) call
  else .fault

/-- A puller iteration writes only `GET`, `STATUS`, `ENGINE` and `PULL1`. -/
theorem pullerIter_frame {ramin : Mem} {r r' : Regs} {entry : Nat × Nat} {call : PgraphCall}
    (h : pullerIter ramin r = .pulled r' entry call) :
    r' = { r with get := r'.get, status := r'.status, engine := r'.engine, pull1 := r'.pull1 } := by
  unfold pullerIter at h
  dsimp only at h
  split at h
  · cases h
  split at h
  · cases h
  split at h
  · split at h
    · cases h
    · next r₁ call₁ hdispatch =>
        cases h
        rw [pullerDispatch_frame hdispatch, cache1Pull_frame r]
  · cases h

end Xqemu.Nv2a.Pfifo
