import ObjectMachine.Proofs.Assembler.Locals

/-!
# ObjectMachine.Proofs.Assembler.Pools

The pools of an assembled unit, and the instructions that index them.

Pools only grow at their end, so an index stays right whatever is added later, and no pool outgrows
the byte that an index has in an instruction.

* `Command.pooled?` — the operation and the entry of a command that emits the index of an entry.
* `Assembler.PoolStep`, `Assembler.apply_pools` — what one command does to the pools.
* `Assembler.Pooled` — the pools after the commands performed so far.
* `Assembler.finished_indices_hold` — the result on whole runs.
-/

namespace ObjectMachine

/-! ## Entries of the pools -/

/-- An entry of one of the two pools. -/
inductive PoolEntry where
  | constant (k : Constant)
  | name (s : String)

/-- The entry is in its pool at the index. -/
def CodeUnit.Holds (u : CodeUnit) : PoolEntry → Nat → Prop
  | .constant k, index => u.consts[index]? = some k
  | .name s, index => u.names[index]? = some s

/-- The operations whose argument is an index of a pool. -/
def Op.indexesPool : Op → Bool
  | .pushConst | .makeClosure | .pushName | .storeName | .getAttr => true
  | _ => false

theorem Op.format_of_indexesPool {op : Op} (h : op.indexesPool = true) : op.format = .args := by
  cases op <;> first | rfl | cases h

namespace Command

/-- The constant that a command adds. -/
def constant? : Command → Option Constant
  | .constant k | .pushConst k => some k
  | .makeClosure u => some (.code u)
  | _ => none

/-- The name that a command finds or adds. -/
def name? : Command → Option String
  | .name s | .pushName s | .storeName s | .getAttr s => some s
  | _ => none

/-- The captured name that a command declares. -/
def capture? : Command → Option String
  | .capture s => some s
  | _ => none

/-- The entry that a command looks after. -/
def entry? (c : Command) : Option PoolEntry :=
  match c.constant? with
  | some k => some (.constant k)
  | none => c.name?.map .name

/-- The operation that a command emits with the index of an entry, and the entry. -/
def pooled? : Command → Option (Op × PoolEntry)
  | .pushConst k => some (.pushConst, .constant k)
  | .makeClosure u => some (.makeClosure, .constant (.code u))
  | .pushName s => some (.pushName, .name s)
  | .storeName s => some (.storeName, .name s)
  | .getAttr s => some (.getAttr, .name s)
  | _ => none

theorem entry?_of_pooled? {c : Command} {op : Op} {e : PoolEntry} (h : c.pooled? = some (op, e)) :
    c.entry? = some e := by
  cases c <;> cases h <;> rfl

end Command

namespace Assembler

variable {a a' b b' : Assembler} {c : Command} {cs before : List Command} {op : Op} {e : PoolEntry}
  {i : Instr} {n p : Nat} {name s : String} {names : List String} {checks : Bool}

/-- The index that an entry gets, or has. -/
def indexOf (a : Assembler) : PoolEntry → Nat
  | .constant _ => a.unit.consts.length
  | .name s => a.unit.names.idxOf s

/-! ## Lists of different names -/

/-- The names with `s` at the end, unless it is among them. -/
def withName (names : List String) (s : String) : List String :=
  if s ∈ names then names else names ++ [s]

theorem withName_nodup (h : names.Nodup) : (withName names s).Nodup := by
  unfold withName
  split
  · exact h
  · next hs =>
    simpa using List.Nodup.concat hs h

theorem prefix_withName (names : List String) (s : String) : names <+: withName names s := by
  unfold withName
  split
  · exact List.prefix_rfl
  · exact List.prefix_append names [s]

theorem getElem?_withName (names : List String) (s : String) :
    (withName names s)[names.idxOf s]? = some s := by
  unfold withName
  split
  · next hs => exact List.getElem?_idxOf hs
  · next hs => simp [List.idxOf_eq_length hs]

/-! ## One command -/

/-- What a command does to the pools and to the captured names. -/
structure PoolStep (a : Assembler) (c : Command) (a' : Assembler) : Prop where
  consts : a'.unit.consts = a.unit.consts ++ c.constant?.toList
  names : a'.unit.names = c.name?.elim a.unit.names (withName a.unit.names)
  freevars : a'.unit.freevars = c.capture?.elim a.unit.freevars (withName a.unit.freevars)
  constsFit : a.unit.consts.length ≤ poolLimit → a'.unit.consts.length ≤ poolLimit
  namesFit : a.unit.names.length ≤ poolLimit → a'.unit.names.length ≤ poolLimit

theorem PoolStep.idle (hc : c.entry? = none) (hcapture : c.capture? = none)
    (hconsts : a'.unit.consts = a.unit.consts) (hnames : a'.unit.names = a.unit.names)
    (hfree : a'.unit.freevars = a.unit.freevars) : PoolStep a c a' := by
  have hconst : c.constant? = none := by cases c <;> first | rfl | cases hc
  have hname : c.name? = none := by cases c <;> first | rfl | cases hc
  refine ⟨?_, ?_, ?_, ?_, ?_⟩
  · simp [hconst, hconsts]
  · simp [hname, hnames]
  · simp [hcapture, hfree]
  · rw [hconsts]
    exact id
  · rw [hnames]
    exact id

theorem PoolStep.recodes (hc : c.entry? = none) (hcapture : c.capture? = none)
    (h : a.Recodes a') : PoolStep a c a' := by
  unfold Recodes at h
  exact .idle hc hcapture (by rw [h]) (by rw [h]) (by rw [h])

/-- A step on the pools may be followed by one on the code. -/
theorem PoolStep.then_recodes (h : PoolStep a c a') (h' : a'.Recodes b) : PoolStep a c b := by
  unfold Recodes at h'
  have hconsts : b.unit.consts = a'.unit.consts := by rw [h']
  have hnames : b.unit.names = a'.unit.names := by rw [h']
  have hfree : b.unit.freevars = a'.unit.freevars := by rw [h']
  refine ⟨hconsts.trans h.consts, hnames.trans h.names, hfree.trans h.freevars, ?_, ?_⟩
  · rw [hconsts]
    exact h.constsFit
  · rw [hnames]
    exact h.namesFit

theorem constant_pools {k : Constant} (hk : c.constant? = some k) (hname : c.name? = none)
    (hcapture : c.capture? = none) (h : a.constant k = .ok (n, a')) : PoolStep a c a' := by
  simp only [constant] at h
  split at h
  · next hlt =>
    cases h
    refine ⟨by simp [hk], by simp [hname], by simp [hcapture], fun _ => ?_, id⟩
    simpa using hlt
  · cases h

theorem name_pools (hs : c.name? = some s) (hconst : c.constant? = none)
    (hcapture : c.capture? = none) (h : a.name s = .ok (n, a')) : PoolStep a c a' := by
  simp only [Assembler.name] at h
  split at h
  · next hfound =>
    have hmem : s ∈ a.unit.names := List.isSome_idxOf?.mp (by rw [hfound]; rfl)
    cases h
    exact ⟨by simp [hconst], by simp [hs, withName, hmem], by simp [hcapture], id, id⟩
  · next hfound =>
    have hmem : s ∉ a.unit.names := List.idxOf?_eq_none_iff.mp hfound
    split at h
    · next hlt =>
      cases h
      refine ⟨by simp [hconst], by simp [hs, withName, hmem], by simp [hcapture], id, fun _ => ?_⟩
      simpa using hlt
    · cases h

theorem emitConst_pools {k : Constant} (hk : c.constant? = some k) (hname : c.name? = none)
    (hcapture : c.capture? = none) (h : a.emitConst op k checks = .ok (n, a')) :
    PoolStep a c a' := by
  unfold emitConst at h
  split at h
  · next index b hb => exact (constant_pools hk hname hcapture hb).then_recodes (.emitArg h)
  · cases h

theorem emitName_pools (hs : c.name? = some s) (hconst : c.constant? = none)
    (hcapture : c.capture? = none) (h : a.emitName op s checks = .ok (n, a')) :
    PoolStep a c a' := by
  unfold emitName at h
  split at h
  · next index b hb => exact (name_pools hs hconst hcapture hb).then_recodes (.emitArg h)
  · cases h

theorem apply_pools (h : a.apply c checks = .ok (n, a')) : PoolStep a c a' := by
  cases c with
  | parameter s =>
    simp only [apply, parameter] at h
    split at h
    · cases h
    · split at h
      · cases h
      · cases h
        exact .idle rfl rfl rfl rfl rfl
  | declare s =>
    cases h
    exact .idle rfl rfl rfl rfl rfl
  | capture s =>
    cases h
    refine ⟨by simp [Command.constant?], rfl, ?_, id, id⟩
    simp [Command.capture?, withName]
  | constant k => exact constant_pools rfl rfl rfl h
  | name s => exact name_pools rfl rfl rfl h
  | emit op => exact .recodes rfl rfl (.emit h)
  | emitArg op arg => exact .recodes rfl rfl (.emitArg h)
  | pushConst k => exact emitConst_pools rfl rfl rfl h
  | pushName s => exact emitName_pools rfl rfl rfl h
  | storeName s => exact emitName_pools rfl rfl rfl h
  | getAttr s => exact emitName_pools rfl rfl rfl h
  | call argc => exact .recodes rfl rfl (.emitArg h)
  | makeClosure u => exact emitConst_pools rfl rfl rfl h
  | label =>
    cases h
    exact .idle rfl rfl rfl rfl rfl
  | jump op l => exact .recodes rfl rfl (.jump h)
  | resolve l => exact .recodes rfl rfl (.resolve h)

/-- The entry of a command is where the command looked for it or put it. -/
theorem PoolStep.holds (h : PoolStep a c a') (he : c.entry? = some e) :
    a'.unit.Holds e (a.indexOf e) := by
  unfold Command.entry? at he
  split at he
  · next k hk =>
    cases he
    simp [CodeUnit.Holds, indexOf, h.consts, hk]
  · next hk =>
    obtain ⟨s, hs, rfl⟩ := Option.map_eq_some_iff.mp he
    simpa [CodeUnit.Holds, indexOf, h.names, hs] using getElem?_withName a.unit.names s

/-! ## Runs -/

/-- The pools of the one are the beginnings of the pools of the other. -/
structure PoolsGrow (a b : Assembler) : Prop where
  consts : a.unit.consts <+: b.unit.consts
  names : a.unit.names <+: b.unit.names

theorem PoolsGrow.refl (a : Assembler) : PoolsGrow a a :=
  ⟨List.prefix_rfl, List.prefix_rfl⟩

theorem PoolsGrow.trans (h : PoolsGrow a a') (h' : PoolsGrow a' b) : PoolsGrow a b :=
  ⟨h.consts.trans h'.consts, h.names.trans h'.names⟩

theorem PoolStep.grows (h : PoolStep a c a') : PoolsGrow a a' := by
  refine ⟨?_, ?_⟩
  · rw [h.consts]
    exact List.prefix_append ..
  · rw [h.names]
    cases c.name? with
    | none => exact List.prefix_rfl
    | some s => exact prefix_withName a.unit.names s

theorem applyAll_poolsGrow {more : List Command} (h : a.applyAll more checks = .ok b) :
    PoolsGrow a b := by
  induction more generalizing a with
  | nil =>
    cases h
    exact .refl _
  | cons c more ih =>
    obtain ⟨n, a', hc, hmore⟩ := applyAll_cons h
    exact (apply_pools hc).grows.trans (ih hmore)

theorem getElem?_of_prefix {α : Type} {l l' : List α} {x : α} (h : l <+: l')
    (hx : l[n]? = some x) : l'[n]? = some x := by
  obtain ⟨rest, rfl⟩ := h
  rw [List.getElem?_append_left (List.getElem?_eq_some_iff.mp hx).1, hx]

/-- An entry stays at its index. -/
theorem PoolsGrow.holds (h : PoolsGrow a b) (he : a.unit.Holds e n) : b.unit.Holds e n := by
  cases e with
  | constant k => exact getElem?_of_prefix h.consts he
  | name s => exact getElem?_of_prefix h.names he

/-- The pools after the commands `cs`. -/
structure Pooled (cs : List Command) (a : Assembler) : Prop where
  consts : a.unit.consts = cs.filterMap Command.constant?
  names : a.unit.names.Nodup
  freevars : a.unit.freevars.Nodup
  constsFit : a.unit.consts.length ≤ poolLimit
  namesFit : a.unit.names.length ≤ poolLimit

theorem pooled_start (name : String) : Pooled [] (start name) where
  consts := rfl
  names := .nil
  freevars := .nil
  constsFit := Nat.zero_le _
  namesFit := Nat.zero_le _

theorem Pooled.step (h : Pooled cs a) (hs : PoolStep a c a') : Pooled (cs ++ [c]) a' where
  consts := by
    rw [hs.consts, h.consts, List.filterMap_append]
    cases hc : c.constant? <;> simp [hc]
  names := by
    rw [hs.names]
    cases c.name? with
    | none => exact h.names
    | some s => exact withName_nodup h.names
  freevars := by
    rw [hs.freevars]
    cases c.capture? with
    | none => exact h.freevars
    | some s => exact withName_nodup h.freevars
  constsFit := hs.constsFit h.constsFit
  namesFit := hs.namesFit h.namesFit

theorem applyAll_pooled {more : List Command} (h : Pooled cs a)
    (ha : a.applyAll more checks = .ok b) : Pooled (cs ++ more) b := by
  induction more generalizing cs a with
  | nil =>
    cases ha
    simpa using h
  | cons c more ih =>
    obtain ⟨n, a', hc, hmore⟩ := applyAll_cons ha
    simpa using ih (h.step (apply_pools hc)) hmore

/-- Every index of an entry fits in a byte. -/
theorem Pooled.index_lt (h : Pooled cs a) (he : a.unit.Holds e n) : n < poolLimit := by
  cases e with
  | constant k => exact Nat.lt_of_lt_of_le (List.getElem?_eq_some_iff.mp he).1 h.constsFit
  | name s => exact Nat.lt_of_lt_of_le (List.getElem?_eq_some_iff.mp he).1 h.namesFit

/-! ## Instructions with an index -/

theorem word?_of_pooled? (h : c.pooled? = some (op, e)) (a : Assembler) :
    a.word? c = some (.args op (UInt8.ofNat (a.indexOf e)) 0 0) := by
  cases c <;> cases h <;> rfl

/-- Whatever is performed later, the entry of a command is at the index that the command found. -/
theorem Performs.holds (h : Performs checks name cs before b c n b')
    (hrun : (start name).applyAll cs checks = .ok a) (he : c.entry? = some e) :
    a.unit.Holds e (b.indexOf e) := by
  obtain ⟨after, hafter⟩ := h.rest hrun
  exact (applyAll_poolsGrow hafter).holds ((apply_pools h.2.2).holds he)

/-- A command that emits the index of an entry emits an operation that takes one. No other command
does, but for those that are given the operation: with an argument, or without one if the build does
not check formats. -/
theorem pooled?_of_word? (h : b.apply c checks = .ok (n, b')) (hword : b.word? c = some i)
    (hop : i.op? = some op) (hpool : op.indexesPool = true) :
    (∃ e, c.pooled? = some (op, e)) ∨ (∃ arg, c = .emitArg op arg) ∨
      checks = false ∧ c = .emit op := by
  cases c with
  | emit op' =>
    obtain rfl : Instr.simple op' = i := Option.some.inj hword
    obtain rfl : op' = op := Option.some.inj ((Instr.op?_simple op').symm.trans hop)
    cases checks with
    | false => exact .inr (.inr ⟨rfl, rfl⟩)
    | true =>
      have hformat : op'.format = .none := format_of_emit h
      rw [Op.format_of_indexesPool hpool] at hformat
      cases hformat
  | emitArg op' arg =>
    obtain rfl : Instr.args op' arg 0 0 = i := Option.some.inj hword
    obtain rfl : op' = op := Option.some.inj ((Instr.op?_args op' arg).symm.trans hop)
    exact .inr (.inl ⟨arg, rfl⟩)
  | call argc =>
    obtain rfl : Instr.args .call argc 0 0 = i := Option.some.inj hword
    obtain rfl : Op.call = op := Option.some.inj ((Instr.op?_args .call argc).symm.trans hop)
    cases hpool
  | pushConst | pushName | storeName | getAttr | makeClosure =>
    obtain rfl := Option.some.inj hword
    obtain rfl := Option.some.inj ((Instr.op?_args _ _).symm.trans hop)
    exact .inl ⟨_, rfl⟩
  | _ => cases hword

/-- No jump has the index of an entry. -/
theorem JumpsTo.indexesPool {op' : Op} {l : Nat} (h : a.JumpsTo p op l) (hjump : op.isJump = true)
    (hcode : a.unit.code[p]? = some i) (hop : i.op? = some op') : op'.indexesPool = false := by
  obtain ⟨addr, hfits, hword⟩ := h.word
  rw [hcode] at hword
  cases hword
  rw [Instr.op?_jumpTo op hfits] at hop
  cases hop
  by_contra hpool
  rw [Op.isJump, Op.format_of_indexesPool (Bool.not_eq_false _ ▸ hpool)] at hjump
  cases hjump

/-- In every finished unit whose instructions with an index come from the commands that take the
entry itself, each such instruction has the index of the entry that was given, and each such command
has its instruction; the indices that are answered are right too. No name comes twice among the
names or the captured names, each pool has room for the index in a byte, and the parameters come
first among the locals, in the order in which they were declared. A build that checks formats emits
no operation with an index without it, so there the second condition is met. -/
theorem finished_indices_hold {u : CodeUnit} (h : assemble name cs checks = .ok u)
    (honly : ∀ op arg, .emitArg op arg ∈ cs → op.indexesPool = false)
    (hbare : checks = false → ∀ op, .emit op ∈ cs → op.indexesPool = false) :
    (∀ p i op, u.code[p]? = some i → i.op? = some op → op.indexesPool = true →
      ∃ before b c e b', Performs checks name cs before b c p b' ∧ c.pooled? = some (op, e) ∧
        u.Holds e i.arg1.toNat) ∧
    (∀ before b c p b' op e, Performs checks name cs before b c p b' → c.pooled? = some (op, e) →
      ∃ i, u.code[p]? = some i ∧ i.op? = some op ∧ i.arg1.toNat = b.indexOf e ∧
        u.Holds e i.arg1.toNat) ∧
    (∀ before b c n b' e, Performs checks name cs before b c n b' → c.entry? = some e →
      c.pooled? = none → n < 256 ∧ u.Holds e n) ∧
    u.names.Nodup ∧ u.freevars.Nodup ∧ u.consts.length ≤ 256 ∧ u.names.length ≤ 256 ∧
    u.locals.take u.arity.toNat = cs.filterMap Command.parameter? ∧
    (cs.filterMap Command.parameter?).length = u.arity.toNat := by
  obtain ⟨a, hrun, rfl⟩ := applyAll_of_assemble h
  have hpools : Pooled cs a := by simpa using applyAll_pooled (pooled_start name) hrun
  have hdecl : Declared cs a := by simpa using (declared_start name).applyAll hrun
  have hgiven : ∀ before b c p b' op e, Performs checks name cs before b c p b' →
      c.pooled? = some (op, e) → ∃ i, a.unit.code[p]? = some i ∧ i.op? = some op ∧
        i.arg1.toNat = b.indexOf e ∧ a.unit.Holds e i.arg1.toNat := by
    intro before b c p b' op e hperf hpooled
    have hheld := hperf.holds hrun (Command.entry?_of_pooled? hpooled)
    have hindex : (UInt8.ofNat (b.indexOf e)).toNat = b.indexOf e :=
      UInt8.toNat_ofNat_of_lt' (hpools.index_lt hheld)
    have hcode := (hperf.word (word?_of_pooled? hpooled b) hrun).2
    exact ⟨_, hcode, Instr.op?_args .., by rw [Instr.arg1_args, hindex],
      by rwa [Instr.arg1_args, hindex]⟩
  refine ⟨?_, hgiven, ?_, hpools.names, hpools.freevars, hpools.constsFit, hpools.namesFit,
    hdecl.params, hdecl.params ▸ hdecl.arity⟩
  · intro p i op hcode hop hpool
    have hp : p < a.here := (Array.getElem?_eq_some_iff.mp hcode).1
    obtain ⟨before, b, c, b', hperf, ⟨w, hword⟩ | ⟨op', l, rfl⟩⟩ := performs_of_lt hrun hp
    · obtain rfl : w = i := by
        have hw := (hperf.word hword hrun).2
        rw [hcode] at hw
        exact (Option.some.inj hw).symm
      rcases pooled?_of_word? hperf.2.2 hword hop hpool with ⟨e, he⟩ | ⟨arg, rfl⟩ | ⟨hno, rfl⟩
      · obtain ⟨w', hcode', -, -, hheld⟩ := hgiven before b c p b' op e hperf he
        rw [hcode] at hcode'
        cases hcode'
        exact ⟨before, b, c, e, b', hperf, he, hheld⟩
      · have hmem : .emitArg op arg ∈ cs := hperf.1.subset (by simp)
        rw [honly op arg hmem] at hpool
        cases hpool
      · have hmem : .emit op ∈ cs := hperf.1.subset (by simp)
        rw [hbare hno op hmem] at hpool
        cases hpool
    · have hnone := (hperf.jumpsTo hrun).indexesPool (isJump_of_jump hperf.2.2) hcode hop
      rw [hnone] at hpool
      cases hpool
  · intro before b c n b' e hperf he hpooled
    have hheld := hperf.holds hrun he
    have hn : n = b.indexOf e := by
      cases c with
      | constant k =>
        cases he
        exact (constant_eq_ok hperf.2.2).1
      | name s =>
        cases he
        exact (name_eq_ok hperf.2.2).1
      | pushConst | pushName | storeName | getAttr | makeClosure => cases hpooled
      | _ => cases he
    rw [hn]
    exact ⟨hpools.index_lt hheld, hheld⟩

/-- A name and a constant that are used before others are added: the second use of the name shares
the index of the first, and the closure has the second place among the constants. The build does not
check formats. -/
theorem finished_indices_hold_shared :
    let cs : List Command := [.parameter "x", .pushName "x", .pushConst (.int 7), .pushName "y",
      .storeName "x", .makeClosure { name := "inner" }, .constant .nil, .name "z", .capture "y",
      .emitArg .makeArray 2, .emit .ret]
    ∃ u, assemble "f" cs false = .ok u ∧
      (∀ op arg, .emitArg op arg ∈ cs → op.indexesPool = false) ∧
      (∀ op, .emit op ∈ cs → op.indexesPool = false) ∧
      (∃ i, u.code[3]? = some i ∧ i.op? = some .storeName ∧ i.arg1.toNat = 0 ∧
        u.names[i.arg1.toNat]? = some "x") ∧
      (∃ i, u.code[4]? = some i ∧ i.op? = some .makeClosure ∧ i.arg1.toNat = 1 ∧
        u.consts[i.arg1.toNat]? = some (.code { name := "inner" })) ∧
      u.names.Nodup ∧ u.locals.take u.arity.toNat = ["x"] := by
  intro cs
  have honly : ∀ op arg, .emitArg op arg ∈ cs → op.indexesPool = false := by
    intro op arg h
    simp only [cs, List.mem_cons, reduceCtorEq, Command.emitArg.injEq, List.not_mem_nil, false_or,
      or_false] at h
    rw [h.1]
    rfl
  have hbare : ∀ op, .emit op ∈ cs → op.indexesPool = false := by
    intro op h
    simp only [cs, List.mem_cons, reduceCtorEq, Command.emit.injEq, List.not_mem_nil, false_or,
      or_false] at h
    rw [h]
    rfl
  obtain ⟨-, hgiven, -, hnames, -, -, -, hparams, -⟩ :=
    finished_indices_hold (rfl : assemble "f" cs false = .ok _) honly fun _ => hbare
  refine ⟨_, rfl, honly, hbare, ?_, ?_, hnames, hparams⟩
  · exact hgiven (cs.take 4) _ (.storeName "x") 3 _ .storeName (.name "x")
      ⟨⟨cs.drop 5, rfl⟩, rfl, rfl⟩ rfl
  · exact hgiven (cs.take 5) _ (.makeClosure { name := "inner" }) 4 _ .makeClosure
      (.constant (.code { name := "inner" })) ⟨⟨cs.drop 6, rfl⟩, rfl, rfl⟩ rfl

end Assembler
end ObjectMachine
