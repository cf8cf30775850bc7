import Xqemu.Dsp.Core

/-! # The system stack over a run of pushes and pops

DO, DOR, JSR, BSR and the interrupts push a PC and an SR; `MOVEC xx,SSH`
pushes a PC only and leaves the SR half of its cell as it was; ENDDO, RTS and
RTI pop.  Over a run in which no push finds the stack full and no pop finds it
empty, the sixteen-cell arrays of `dsp_stack_push` and `dsp_stack_pop` behave as
a list of at most fifteen entries: SP is its depth, SSH and SSL show its top
cell, and each pop returns the PC of the push it matches, and its SR when that
push saved one.
-/

namespace Xqemu.Dsp

variable {ρ : Type}

/-- A call of `dsp_stack_push(dsp, curpc, cursr, sshOnly)` or `dsp_stack_pop`. -/
inductive StackOp where
  | push (curpc cursr : Nat) (sshOnly : Bool)
  | pop
  deriving DecidableEq, Repr

/-- A run of stack operations: the state, and the `(newpc, newsr)` of each pop;
`none` is the `assert` of a stack error. -/
def runStack (s : Core ρ) : List StackOp → Option (Core ρ × List (Nat × Nat))
  | [] => some (s, [])
  | .push curpc cursr sshOnly :: ops =>
      (stackPush s curpc cursr sshOnly).bind fun s => runStack s ops
  | .pop :: ops =>
      (stackPop s).bind fun (s, newpc, newsr) =>
        (runStack s ops).map fun (t, outs) => (t, (newpc, newsr) :: outs)

/-! ## The stack it refines -/

/-- An entry: the 16-bit PC its push saved, and the 16-bit SR unless the push
was `MOVEC xx,SSH`. -/
structure Entry where
  pc : Nat
  sr : Option Nat
  deriving DecidableEq, Repr

def Entry.ofPush (curpc cursr : Nat) (sshOnly : Bool) : Entry :=
  ⟨curpc % 2 ^ 16, if sshOnly then none else some (cursr % 2 ^ 16)⟩

/-- The entry a cell already on the stack stands for. -/
def Entry.ofCell (c : Nat × Nat) : Entry := ⟨c.1, some c.2⟩

/-- A stack of at most fifteen entries: the stack left and the entries popped;
`none` when a push finds it full or a pop finds it empty. -/
def lifoRun : List Entry → List StackOp → Option (List Entry × List Entry)
  | st, [] => some (st, [])
  | st, .push curpc cursr sshOnly :: ops =>
      if st.length < 15 then lifoRun (st ++ [Entry.ofPush curpc cursr sshOnly]) ops else none
  | st, .pop :: ops =>
      st.getLast?.bind fun e => (lifoRun st.dropLast ops).map fun (st', popped) => (st', e :: popped)

/-- A cell, or a popped `(newpc, newsr)`, holds what an entry saved. -/
def Saves (c : Nat × Nat) (e : Entry) : Prop := c.1 = e.pc ∧ ∀ v, e.sr = some v → c.2 = v

/-- The cells of the array stack of `s` are those of `l`, each saving its entry. -/
structure Tracks (s : Core ρ) (l : List (Entry × (Nat × Nat))) : Prop where
  holds : StackHolds s (l.map Prod.snd)
  saves : ∀ p ∈ l, Saves p.2 p.1

/-- The cell a push writes on a stack of depth `d`: the SR half is the old one
for `MOVEC xx,SSH`. -/
def pushedCell (s : Core ρ) (d curpc cursr : Nat) (sshOnly : Bool) : Nat × Nat :=
  (curpc &&& bitmask 16, if sshOnly then s.sslStack (d + 1) else cursr &&& bitmask 16)

section Steps

variable {s t : Core ρ} {l : List (Entry × (Nat × Nat))}

theorem saves_pushedCell (s : Core ρ) (d curpc cursr : Nat) (sshOnly : Bool) :
    Saves (pushedCell s d curpc cursr sshOnly) (Entry.ofPush curpc cursr sshOnly) := by
  refine ⟨and_bitmask curpc 16, fun v hv => ?_⟩
  cases sshOnly with
  | true => cases hv
  | false =>
      simp only [Entry.ofPush, Bool.false_eq_true, if_false, Option.some.injEq] at hv
      simp only [pushedCell, Bool.false_eq_true, if_false, and_bitmask, hv]

/-- A push on a stack with room writes its cell. -/
theorem Tracks.push (ht : Tracks s l) (hlen : l.length < 15) (curpc cursr : Nat) (sshOnly : Bool) :
    ∃ t, stackPush s curpc cursr sshOnly = some t ∧
      Tracks t (l ++ [(Entry.ofPush curpc cursr sshOnly, pushedCell s l.length curpc cursr sshOnly)]) := by
  have hlen' : (l.map Prod.snd).length < 15 := by rw [List.length_map]; exact hlen
  have hcell := ht.holds.pushCell hlen' (pushedCell s l.length curpc cursr sshOnly)
  rw [List.length_map] at hcell
  have hsaves : ∀ p ∈ l ++ [(Entry.ofPush curpc cursr sshOnly, pushedCell s l.length curpc cursr sshOnly)],
      Saves p.2 p.1 := by
    intro p hp
    rcases List.mem_append.mp hp with hp | hp
    · exact ht.saves p hp
    · rw [List.mem_singleton.mp hp]
      exact saves_pushedCell s _ curpc cursr sshOnly
  cases sshOnly with
  | true =>
      refine ⟨_, stackPush_sshOnly_of_holds ht.holds hlen' curpc cursr, ⟨?_, hsaves⟩⟩
      rw [List.map_append, List.length_map]
      exact hcell
  | false =>
      refine ⟨_, stackPush_of_holds ht.holds hlen' curpc cursr, ⟨?_, hsaves⟩⟩
      rw [List.map_append, List.length_map]
      exact hcell

/-- A pop of a non-empty stack returns the top cell and leaves the rest. -/
theorem Tracks.pop {p : Entry × (Nat × Nat)} (ht : Tracks s (l ++ [p])) :
    ∃ t, stackPop s = some (t, p.2.1, p.2.2) ∧ Tracks t l := by
  have hholds : StackHolds s (l.map Prod.snd ++ [p.2]) := by
    simpa only [List.map_append, List.map_cons, List.map_nil] using ht.holds
  refine ⟨_, stackPop_of_holds hholds, ⟨hholds.pop, ?_⟩⟩
  exact fun q hq => ht.saves q (List.mem_append_left _ hq)

end Steps

/-- A run without stack errors keeps the arrays tracking a stack of entries,
which the run changes as `lifoRun` does, each pop returning what its entry
saved. -/
theorem Tracks.run :
    ∀ (ops : List StackOp) {s t : Core ρ} {l : List (Entry × (Nat × Nat))}
      {outs : List (Nat × Nat)}, Tracks s l → runStack s ops = some (t, outs) →
      ∃ l' popped, lifoRun (l.map Prod.fst) ops = some (l'.map Prod.fst, popped) ∧
        Tracks t l' ∧ List.Forall₂ Saves outs popped
  | [], s, t, l, outs, ht, hrun => by
      obtain ⟨rfl, rfl⟩ := Prod.mk.inj (Option.some.inj hrun).symm
      exact ⟨l, [], rfl, ht, List.Forall₂.nil⟩
  | .push curpc cursr sshOnly :: ops, s, t, l, outs, ht, hrun => by
      -- a push that passed its assertion had room
      have hlen : l.length < 15 := by
        by_contra hfull
        have hle := ht.holds.length_le
        rw [List.length_map] at hle
        have hnone := stackPush_of_full ht.holds (by rw [List.length_map]; omega) curpc cursr sshOnly
        simp [runStack, hnone] at hrun
      obtain ⟨s', hpush, ht'⟩ := ht.push hlen curpc cursr sshOnly
      rw [runStack, hpush, Option.bind_some] at hrun
      obtain ⟨l', popped, hlifo, ht'', hsaves⟩ := Tracks.run ops ht' hrun
      refine ⟨l', popped, ?_, ht'', hsaves⟩
      rw [lifoRun, List.length_map, if_pos hlen, ← hlifo, List.map_append]
      rfl
  | .pop :: ops, s, t, l, outs, ht, hrun => by
      rcases List.eq_nil_or_concat' l with rfl | ⟨init, p, rfl⟩
      · have hnone := stackPop_of_empty ht.holds
        simp [runStack, hnone] at hrun
      · obtain ⟨s', hpop, ht'⟩ := ht.pop
        rw [runStack, hpop, Option.bind_some] at hrun
        obtain ⟨⟨t', outs'⟩, hrest, hout⟩ := Option.map_eq_some_iff.mp hrun
        obtain ⟨rfl, rfl⟩ := Prod.mk.inj hout
        obtain ⟨l', popped, hlifo, ht'', hsaves⟩ := Tracks.run ops ht' hrest
        refine ⟨l', p.1 :: popped, ?_, ht'', List.Forall₂.cons (ht.saves p (by simp)) hsaves⟩
        simp [lifoRun, hlifo]

/-- Over a run of `dsp_stack_push` and `dsp_stack_pop` that raises no stack
error, from a stack of cells `frames`: the stack runs as a list of at most
fifteen entries, SP holds its depth with no error flag, SSH and SSL show the
cell `SP & 0xF`, and each pop returns the 16-bit PC of the push it matches and
its 16-bit SR unless that push was `MOVEC xx,SSH`. -/
theorem system_stack_lifo (s : Core ρ) (frames : List (Nat × Nat)) (ops : List StackOp)
    (t : Core ρ) (outs : List (Nat × Nat)) (hs : StackHolds s frames)
    (hrun : runStack s ops = some (t, outs)) :
    ∃ entries popped, lifoRun (frames.map Entry.ofCell) ops = some (entries, popped) ∧
      t.sp = entries.length ∧ t.sp &&& bitmask 4 = entries.length ∧
      (t.ssh, t.ssl) = (t.sshStack (t.sp &&& bitmask 4), t.sslStack (t.sp &&& bitmask 4)) ∧
      List.Forall₂ Saves outs popped := by
  have hcells : (frames.map fun c => (Entry.ofCell c, c)).map Prod.snd = frames := by
    simp [List.map_map, Function.comp_def]
  have hentries : (frames.map fun c => (Entry.ofCell c, c)).map Prod.fst = frames.map Entry.ofCell := by
    simp [List.map_map, Function.comp_def]
  have ht : Tracks s (frames.map fun c => (Entry.ofCell c, c)) := by
    refine ⟨by rw [hcells]; exact hs, fun p hp => ?_⟩
    obtain ⟨c, -, rfl⟩ := List.mem_map.mp hp
    exact ⟨rfl, fun v hv => (Option.some.inj hv)⟩
  obtain ⟨l', popped, hlifo, ht', hsaves⟩ := Tracks.run ops ht hrun
  have hsp := ht'.holds.sp_eq
  have hle := ht'.holds.length_le
  rw [List.length_map] at hsp hle
  have hmask : t.sp &&& bitmask 4 = t.sp := by
    rw [and_bitmask, Nat.mod_eq_of_lt (by omega)]
  refine ⟨l'.map Prod.fst, popped, by rw [← hentries]; exact hlifo, by rw [hsp, List.length_map],
    by rw [hmask, hsp, List.length_map], ?_, hsaves⟩
  rw [hmask, ht'.holds.top, List.length_map, hsp]
  rfl

/-- The loop unit at reset: SP and both stack arrays cleared. -/
def resetStack : Core Unit where
  pc := 0
  la := 0
  lc := 0
  lcsave := 0
  sr := 0
  sp := 0
  ssh := 0
  ssl := 0
  sshStack := fun _ => 0
  sslStack := fun _ => 0
  pram := fun _ => 0
  loopRep := false
  pcOnRep := false
  curInst := 0
  curInstLen := 0
  rest := ()

/-- A JSR from `$100` with SR `$300`, a `MOVEC #$2a,SSH`, and two pops: the
second pop returns the JSR's PC and SR. -/
theorem system_stack_jsr_movec :
    StackHolds resetStack [] ∧
      ∃ t outs, runStack resetStack
          [.push 0x100 0x300 false, .push 0x2a 0 true, .pop, .pop] = some (t, outs) ∧
        ∃ entries popped, lifoRun (([] : List (Nat × Nat)).map Entry.ofCell)
            [.push 0x100 0x300 false, .push 0x2a 0 true, .pop, .pop] = some (entries, popped) ∧
          t.sp = entries.length ∧ t.sp &&& bitmask 4 = entries.length ∧
          (t.ssh, t.ssl) = (t.sshStack (t.sp &&& bitmask 4), t.sslStack (t.sp &&& bitmask 4)) ∧
          List.Forall₂ Saves outs popped := by
  have hs : StackHolds resetStack [] := ⟨rfl, by decide, ArrayStack.holds_nil _, rfl⟩
  obtain ⟨t, outs, hrun⟩ : ∃ t outs, runStack resetStack
      [.push 0x100 0x300 false, .push 0x2a 0 true, .pop, .pop] = some (t, outs) := ⟨_, _, rfl⟩
  exact ⟨hs, t, outs, hrun, system_stack_lifo resetStack [] _ t outs hs hrun⟩

-- the entries the two pops return: the MOVEC saved no SR
example : lifoRun [] [.push 0x100 0x300 false, .push 0x2a 0 true, .pop, .pop] =
    some ([], [⟨0x2a, none⟩, ⟨0x100, some 0x300⟩]) := by decide

end Xqemu.Dsp
