import Mathlib.Algebra.Group.Nat.Defs
import ObjectMachine.Assembler

/-!
# ObjectMachine.Proofs.Assembler.Effects

What one command of the assembler can do.

* `Instr.jumpTo` — the word of a jump; what it reads back as and what patching makes of it. The
  words of the other formats are written as jumps too.
* `Assembler.word?` — the word that a command other than a jump emits.
* `Assembler.Effect`, `Assembler.apply_effect` — the changes of the code and the labels.
* `Assembler.Recodes` — nothing else of the unit is changed.
* `Assembler.patch_of_mem`, `Assembler.patch_of_notMem` — patching, position by position.
-/

namespace ObjectMachine

namespace Instr

/-- The word of a jump; the address is meant to fit in the operand field. -/
def jumpTo (op : Op) (addr : Nat) : Instr :=
  ⟨op.byte.toUInt32 <<< 24 ||| UInt32.ofNat addr⟩

theorem addr?_eq_ok {op : Op} {addr : Nat} {i : Instr} :
    addr? op addr = .ok i ↔ addr ≤ maxAddr ∧ i = jumpTo op addr := by
  by_cases h : addr ≤ maxAddr
  · simp [addr?, jumpTo, h, eq_comm]
  · simp [addr?, h]

theorem word_jumpTo (op : Op) {addr : Nat} (h : addr ≤ maxAddr) :
    (jumpTo op addr).word.toNat = op.byte.toNat * 2 ^ 24 + addr := by
  have hlt : addr < 2 ^ 24 := Nat.lt_succ_of_le h
  have hb : op.byte.toNat < 256 := op.byte.toNat_lt
  simp only [jumpTo, UInt32.toNat_or, UInt32.toNat_shiftLeft, UInt8.toNat_toUInt32,
    UInt32.toNat_ofNat']
  rw [Nat.mod_eq_of_lt (by omega : addr < 2 ^ 32)]
  show op.byte.toNat <<< 24 % 2 ^ 32 ||| addr = _
  rw [Nat.mod_eq_of_lt (by rw [Nat.shiftLeft_eq]; omega), ← Nat.shiftLeft_add_eq_or_of_lt hlt,
    Nat.shiftLeft_eq]

theorem op?_jumpTo (op : Op) {addr : Nat} (h : addr ≤ maxAddr) :
    (jumpTo op addr).op? = some op := by
  have hlt : addr < 2 ^ 24 := Nat.lt_succ_of_le h
  have hb : op.byte.toNat < 256 := op.byte.toNat_lt
  have hop : (jumpTo op addr).opcode = op.byte := by
    apply UInt8.toNat_inj.mp
    simp only [opcode, UInt32.toNat_toUInt8, UInt32.toNat_shiftRight, word_jumpTo op h]
    show (op.byte.toNat * 2 ^ 24 + addr) >>> 24 % 256 = _
    rw [Nat.shiftRight_eq_div_pow]
    omega
  rw [op?, hop, Op.ofByte?_byte]

theorem operand_jumpTo (op : Op) {addr : Nat} (h : addr ≤ maxAddr) :
    (jumpTo op addr).operand = addr := by
  have hlt : addr < 2 ^ 24 := Nat.lt_succ_of_le h
  simp only [operand, UInt32.toNat_and, word_jumpTo op h]
  show (op.byte.toNat * 2 ^ 24 + addr) &&& (2 ^ 24 - 1) = _
  rw [Nat.and_two_pow_sub_one_eq_mod]
  omega

/-- Patching a jump keeps its operation and forgets its old address. -/
theorem withAddr?_jumpTo (op : Op) {x : Nat} (hx : x ≤ maxAddr) (addr : Nat) :
    (jumpTo op x).withAddr? addr = addr? op addr := by
  have hlt : x < 2 ^ 24 := Nat.lt_succ_of_le hx
  have hkeep : op.byte.toUInt32 <<< 24 &&& (0xFF000000 : UInt32) = op.byte.toUInt32 <<< 24 := by
    cases op <;> rfl
  have hdrop : UInt32.ofNat x &&& (0xFF000000 : UInt32) = 0 := by
    apply UInt32.toNat_inj.mp
    rw [UInt32.toNat_and, UInt32.toNat_ofNat', Nat.mod_eq_of_lt (by omega : x < 2 ^ 32)]
    show x &&& (2 ^ 8 - 1) * 2 ^ 24 = 0
    apply Nat.eq_of_testBit_eq
    intro i
    by_cases hi : i < 24
    · have hlow : ¬ 24 ≤ i := by omega
      rw [Nat.testBit_and, Nat.testBit_mul_two_pow, Nat.zero_testBit]
      simp [hlow]
    · have hhigh : x.testBit i = false := by
        apply Nat.testBit_lt_two_pow
        exact Nat.lt_of_lt_of_le hlt (Nat.pow_le_pow_right (by omega) (by omega))
      rw [Nat.testBit_and, hhigh, Bool.false_and, Nat.zero_testBit]
  have hword : (jumpTo op x).word &&& (0xFF000000 : UInt32) = op.byte.toUInt32 <<< 24 := by
    calc (op.byte.toUInt32 <<< 24 ||| UInt32.ofNat x) &&& (0xFF000000 : UInt32)
        = (op.byte.toUInt32 <<< 24 &&& 0xFF000000) ||| (UInt32.ofNat x &&& 0xFF000000) := by
          apply UInt32.toNat_inj.mp
          simp only [UInt32.toNat_and, UInt32.toNat_or, Nat.and_or_distrib_right]
      _ = op.byte.toUInt32 <<< 24 := by rw [hkeep, hdrop, UInt32.or_zero]
  rw [withAddr?, addr?, hword]

/-- A word with an argument is that of a jump: the argument is the highest byte of the address. -/
theorem args_eq_jumpTo (op : Op) (arg : UInt8) :
    args op arg 0 0 = jumpTo op (arg.toNat * 2 ^ 16) := by
  have hfield : arg.toUInt32 <<< 16 = UInt32.ofNat (arg.toNat * 2 ^ 16) := by
    apply UInt32.toNat_inj.mp
    rw [UInt32.toNat_shiftLeft, UInt8.toNat_toUInt32, UInt32.toNat_ofNat']
    exact congrArg (· % 2 ^ 32) (Nat.shiftLeft_eq ..)
  have hzero : (0 : UInt8).toUInt32 = 0 := rfl
  have hshifted : (0 : UInt32) <<< 8 = 0 := rfl
  rw [args, hfield, hzero, hshifted, UInt32.or_zero, UInt32.or_zero, jumpTo]

theorem simple_eq_jumpTo (op : Op) : simple op = jumpTo op 0 := by
  show (⟨op.byte.toUInt32 <<< 24⟩ : Instr) = ⟨op.byte.toUInt32 <<< 24 ||| 0⟩
  rw [UInt32.or_zero]

theorem args_fits (arg : UInt8) : arg.toNat * 2 ^ 16 ≤ maxAddr := by
  have hlt := arg.toNat_lt
  unfold maxAddr
  omega

theorem op?_args (op : Op) (arg : UInt8) : (args op arg 0 0).op? = some op := by
  rw [args_eq_jumpTo, op?_jumpTo op (args_fits arg)]

theorem op?_simple (op : Op) : (simple op).op? = some op := by
  rw [simple_eq_jumpTo, op?_jumpTo op (Nat.zero_le _)]

theorem arg1_jumpTo (op : Op) {addr : Nat} (h : addr ≤ maxAddr) :
    (jumpTo op addr).arg1.toNat = addr / 2 ^ 16 := by
  have hlt : addr < 2 ^ 24 := Nat.lt_succ_of_le h
  rw [arg1, UInt32.toNat_toUInt8, UInt32.toNat_shiftRight, word_jumpTo op h]
  show (op.byte.toNat * 2 ^ 24 + addr) >>> 16 % 256 = _
  rw [Nat.shiftRight_eq_div_pow]
  omega

theorem arg1_args (op : Op) (arg : UInt8) : (args op arg 0 0).arg1 = arg := by
  apply UInt8.toNat_inj.mp
  rw [args_eq_jumpTo, arg1_jumpTo op (args_fits arg), Nat.mul_div_cancel _ (by decide)]

end Instr

namespace Assembler

/-! ### One command -/

/-- The word that a command other than a jump emits. -/
def word? (a : Assembler) : Command → Option Instr
  | .emit op => some (.simple op)
  | .emitArg op arg => some (.args op arg 0 0)
  | .call argc => some (.args .call argc 0 0)
  | .pushConst _ => some (.args .pushConst (UInt8.ofNat a.unit.consts.length) 0 0)
  | .makeClosure _ => some (.args .makeClosure (UInt8.ofNat a.unit.consts.length) 0 0)
  | .pushName n => some (.args .pushName (UInt8.ofNat (a.unit.names.idxOf n)) 0 0)
  | .storeName n => some (.args .storeName (UInt8.ofNat (a.unit.names.idxOf n)) 0 0)
  | .getAttr n => some (.args .getAttr (UInt8.ofNat (a.unit.names.idxOf n)) 0 0)
  | _ => none

/-- What the command `c`, answering `n`, does to the code and the labels. -/
inductive Effect (a : Assembler) (c : Command) (n : Nat) (a' : Assembler) : Prop where
  | word {i : Instr} (hword : a.word? c = some i) (hn : n = a.here)
      (hcode : a'.unit.code = a.unit.code.push i) (hlabels : a'.labels = a.labels)
  | back {op : Op} {l : Nat} {lab : Label} {addr : Nat} (hc : c = .jump op l)
      (hlab : a.labels[l]? = some lab) (haddr : lab.addr = some addr) (hfits : addr ≤ Instr.maxAddr)
      (hn : n = a.here) (hcode : a'.unit.code = a.unit.code.push (.jumpTo op addr))
      (hlabels : a'.labels = a.labels)
  | ahead {op : Op} {l : Nat} {lab : Label} (hc : c = .jump op l)
      (hlab : a.labels[l]? = some lab) (haddr : lab.addr = none)
      (hn : n = a.here) (hcode : a'.unit.code = a.unit.code.push (.jumpTo op 0))
      (hlabels : a'.labels =
        a.labels.setIfInBounds l { lab with pending := lab.pending ++ [a.here] })
  | resolve {l : Nat} {lab : Label} (hc : c = .resolve l)
      (hlab : a.labels[l]? = some lab) (haddr : lab.addr = none) (hn : n = a.here)
      (hpatch : patch a.here lab.pending a.unit.code = .ok a'.unit.code)
      (hlabels : a'.labels = a.labels.setIfInBounds l { addr := some a.here, pending := [] })
  | label (hc : c = .label) (hcode : a'.unit.code = a.unit.code)
      (hlabels : a'.labels = a.labels.push {})
  | pools (hword : a.word? c = none) (hjump : ∀ op l, c ≠ .jump op l)
      (hresolve : ∀ l, c ≠ .resolve l) (hcode : a'.unit.code = a.unit.code)
      (hlabels : a'.labels = a.labels)

variable {a a' : Assembler} {c : Command} {i : Instr} {op : Op} {n p l : Nat} {checks : Bool}

theorem push_eq_ok (h : a.push i = .ok (n, a')) :
    n = a.here ∧ a'.unit.code = a.unit.code.push i ∧ a'.labels = a.labels := by
  simp only [push] at h
  split at h
  · cases h
    exact ⟨rfl, rfl, rfl⟩
  · cases h

/-- What is emitted without operand has none, if the build checks formats. -/
theorem format_of_emit (h : a.emit op = .ok (n, a')) : op.format = .none := by
  unfold emit at h
  split at h
  · cases h
  · next hformat => simpa using hformat

theorem format_of_emitArg {arg : UInt8} (h : a.emitArg op arg = .ok (n, a')) :
    op.format = .args := by
  unfold emitArg at h
  split at h
  · cases h
  · next hformat => simpa using hformat

theorem isJump_of_jump (h : a.jump op l = .ok (n, a')) : op.isJump = true := by
  unfold jump at h
  split at h
  · assumption
  · cases h

theorem push_of_emit (h : a.emit op checks = .ok (n, a')) : a.push (.simple op) = .ok (n, a') := by
  unfold emit at h
  split at h
  · cases h
  · exact h

theorem push_of_emitArg {arg : UInt8} (h : a.emitArg op arg checks = .ok (n, a')) :
    a.push (.args op arg 0 0) = .ok (n, a') := by
  unfold emitArg at h
  split at h
  · cases h
  · exact h

theorem emitArg_eq_ok {arg : UInt8} (h : a.emitArg op arg checks = .ok (n, a')) :
    n = a.here ∧ a'.unit.code = a.unit.code.push (.args op arg 0 0) ∧ a'.labels = a.labels :=
  push_eq_ok (push_of_emitArg h)

theorem constant_eq_ok {k : Constant} (h : a.constant k = .ok (n, a')) :
    n = a.unit.consts.length ∧ a'.unit.code = a.unit.code ∧ a'.labels = a.labels := by
  simp only [constant] at h
  split at h
  · cases h
    exact ⟨rfl, rfl, rfl⟩
  · cases h

theorem name_eq_ok {s : String} (h : a.name s = .ok (n, a')) :
    n = a.unit.names.idxOf s ∧ a'.unit.code = a.unit.code ∧ a'.labels = a.labels := by
  have hindex : a.unit.names.idxOf s = (a.unit.names.idxOf? s).getD a.unit.names.length := by
    rw [List.idxOf, List.findIdx_eq_getD_findIdx?, List.idxOf?]
  simp only [name] at h
  split at h
  · next hfound =>
    cases h
    exact ⟨by rw [hindex, hfound, Option.getD_some], rfl, rfl⟩
  · next hfound =>
    split at h
    · cases h
      exact ⟨by rw [hindex, hfound, Option.getD_none], rfl, rfl⟩
    · cases h

theorem emitConst_eq_ok {k : Constant} (h : a.emitConst op k checks = .ok (n, a')) :
    n = a.here ∧
      a'.unit.code = a.unit.code.push (.args op (UInt8.ofNat a.unit.consts.length) 0 0) ∧
      a'.labels = a.labels := by
  unfold emitConst at h
  split at h
  · next index b hk =>
    obtain ⟨rfl, hcode, hlabels⟩ := constant_eq_ok hk
    have hb : b.here = a.here := by rw [here, here, hcode]
    simpa only [hb, hcode, hlabels] using emitArg_eq_ok h
  · cases h

theorem emitName_eq_ok {s : String} (h : a.emitName op s checks = .ok (n, a')) :
    n = a.here ∧
      a'.unit.code = a.unit.code.push (.args op (UInt8.ofNat (a.unit.names.idxOf s)) 0 0) ∧
      a'.labels = a.labels := by
  unfold emitName at h
  split at h
  · next index b hk =>
    obtain ⟨rfl, hcode, hlabels⟩ := name_eq_ok hk
    have hb : b.here = a.here := by rw [here, here, hcode]
    simpa only [hb, hcode, hlabels] using emitArg_eq_ok h
  · cases h

theorem jump_effect (h : a.jump op l = .ok (n, a')) : Effect a (.jump op l) n a' := by
  unfold jump at h
  split at h
  · split at h
    · cases h
    · next lab hlab =>
      split at h
      · next addr haddr =>
        split at h
        · next i hi =>
          obtain ⟨hfits, rfl⟩ := Instr.addr?_eq_ok.mp hi
          obtain ⟨hn, hcode, hlabels⟩ := push_eq_ok h
          exact .back rfl hlab haddr hfits hn hcode hlabels
        · cases h
      · next haddr =>
        split at h
        · cases h
        · next i hi =>
          obtain ⟨-, rfl⟩ := Instr.addr?_eq_ok.mp hi
          split at h
          · cases h
          · next position b hb =>
            obtain ⟨rfl, hcode, hlabels⟩ := push_eq_ok hb
            cases h
            exact .ahead rfl hlab haddr rfl hcode (by rw [hlabels, haddr])
  · cases h

theorem resolve_effect (h : a.resolve l = .ok (n, a')) : Effect a (.resolve l) n a' := by
  unfold resolve at h
  split at h
  · cases h
  · next lab hlab =>
    split at h
    · cases h
    · next haddr =>
      simp only at h
      split at h
      · cases h
      · next code hcode =>
        cases h
        exact .resolve rfl hlab haddr rfl hcode rfl

/-- Every command that is performed has one of the effects. -/
theorem apply_effect (h : a.apply c checks = .ok (n, a')) : Effect a c n a' := by
  cases c with
  | parameter s =>
    simp only [apply, parameter] at h
    split at h
    · cases h
    · split at h
      · cases h
      · cases h
        exact .pools rfl (by simp) (by simp) rfl rfl
  | declare s =>
    cases h
    exact .pools rfl (by simp) (by simp) rfl rfl
  | capture s =>
    cases h
    exact .pools rfl (by simp) (by simp) rfl rfl
  | constant k =>
    obtain ⟨-, hcode, hlabels⟩ := constant_eq_ok h
    exact .pools rfl (by simp) (by simp) hcode hlabels
  | name s =>
    obtain ⟨-, hcode, hlabels⟩ := name_eq_ok h
    exact .pools rfl (by simp) (by simp) hcode hlabels
  | emit op =>
    obtain ⟨hn, hcode, hlabels⟩ := push_eq_ok (push_of_emit h)
    exact .word rfl hn hcode hlabels
  | emitArg op arg =>
    obtain ⟨hn, hcode, hlabels⟩ := emitArg_eq_ok h
    exact .word rfl hn hcode hlabels
  | call argc =>
    obtain ⟨hn, hcode, hlabels⟩ := emitArg_eq_ok h
    exact .word rfl hn hcode hlabels
  | pushConst k =>
    obtain ⟨hn, hcode, hlabels⟩ := emitConst_eq_ok h
    exact .word rfl hn hcode hlabels
  | makeClosure u =>
    obtain ⟨hn, hcode, hlabels⟩ := emitConst_eq_ok h
    exact .word rfl hn hcode hlabels
  | pushName s =>
    obtain ⟨hn, hcode, hlabels⟩ := emitName_eq_ok h
    exact .word rfl hn hcode hlabels
  | storeName s =>
    obtain ⟨hn, hcode, hlabels⟩ := emitName_eq_ok h
    exact .word rfl hn hcode hlabels
  | getAttr s =>
    obtain ⟨hn, hcode, hlabels⟩ := emitName_eq_ok h
    exact .word rfl hn hcode hlabels
  | label =>
    cases h
    exact .label rfl rfl rfl
  | jump op l => exact jump_effect h
  | resolve l => exact resolve_effect h

theorem Effect.of_resolve (h : Effect a (.resolve l) n a') :
    ∃ lab, a.labels[l]? = some lab ∧ lab.addr = none ∧ n = a.here ∧
      patch a.here lab.pending a.unit.code = .ok a'.unit.code ∧
      a'.labels = a.labels.setIfInBounds l { addr := some a.here, pending := [] } := by
  cases h with
  | resolve hc hlab haddr hn hpatch hlabels =>
    cases hc
    exact ⟨_, hlab, haddr, hn, hpatch, hlabels⟩
  | word hword => simp [word?] at hword
  | back hc => cases hc
  | ahead hc => cases hc
  | label hc => cases hc
  | pools _ _ hresolve => exact absurd rfl (hresolve l)

/-! ### The rest of the unit -/

/-- Nothing but the code of the unit is changed. -/
def Recodes (a a' : Assembler) : Prop :=
  a'.unit = { a.unit with code := a'.unit.code }

namespace Recodes

theorem push (h : a.push i = .ok (n, a')) : a.Recodes a' := by
  simp only [Assembler.push] at h
  split at h
  · cases h
    rfl
  · cases h

theorem emit (h : a.emit op checks = .ok (n, a')) : a.Recodes a' :=
  push (push_of_emit h)

theorem emitArg {arg : UInt8} (h : a.emitArg op arg checks = .ok (n, a')) : a.Recodes a' :=
  push (push_of_emitArg h)

theorem jump (h : a.jump op l = .ok (n, a')) : a.Recodes a' := by
  unfold Assembler.jump at h
  split at h
  · split at h
    · cases h
    · split at h
      · split at h
        · exact push h
        · cases h
      · split at h
        · cases h
        · split at h
          · cases h
          · next b hpush =>
            have hb : a.Recodes b := push hpush
            cases h
            exact hb
  · cases h

theorem resolve (h : a.resolve l = .ok (n, a')) : a.Recodes a' := by
  unfold Assembler.resolve at h
  split at h
  · cases h
  · split at h
    · cases h
    · dsimp only at h
      split at h
      · cases h
      · cases h
        rfl

end Recodes

/-! ### Patching -/

theorem patch_size {addr : Nat} : ∀ {ps : List Nat} {code code' : Array Instr},
    patch addr ps code = .ok code' → code'.size = code.size := by
  intro ps
  induction ps with
  | nil =>
    intro code code' h
    cases h
    rfl
  | cons q rest ih =>
    intro code code' h
    simp only [patch] at h
    split at h
    · exact ih h
    · split at h
      · simpa using ih h
      · cases h

theorem patch_of_notMem {addr : Nat} : ∀ {ps : List Nat} {code code' : Array Instr},
    patch addr ps code = .ok code' → p ∉ ps → code'[p]? = code[p]? := by
  intro ps
  induction ps with
  | nil =>
    intro code code' h _
    cases h
    rfl
  | cons q rest ih =>
    intro code code' h hp
    have hne : q ≠ p := fun hq => hp (by simp [hq])
    have hrest : p ∉ rest := fun hr => hp (by simp [hr])
    simp only [patch] at h
    split at h
    · exact ih h hrest
    · split at h
      · rw [ih h hrest, Array.getElem?_setIfInBounds_ne hne]
      · cases h

/-- A noted jump gets the address, however often its position is noted. -/
theorem patch_of_mem {addr : Nat} : ∀ {ps : List Nat} {code code' : Array Instr} {x : Nat},
    patch addr ps code = .ok code' → p ∈ ps → code[p]? = some (.jumpTo op x) →
      x ≤ Instr.maxAddr → addr ≤ Instr.maxAddr ∧ code'[p]? = some (.jumpTo op addr) := by
  intro ps
  induction ps with
  | nil => intro code code' x _ hp; simp at hp
  | cons q rest ih =>
    intro code code' x h hp hcode hx
    by_cases hq : q = p
    · subst hq
      simp only [patch, hcode, Instr.withAddr?_jumpTo op hx] at h
      split at h
      · next i hi =>
        obtain ⟨hfits, rfl⟩ := Instr.addr?_eq_ok.mp hi
        have hlt : q < code.size := (Array.getElem?_eq_some_iff.mp hcode).1
        have hset : (code.setIfInBounds q (.jumpTo op addr))[q]? = some (.jumpTo op addr) :=
          Array.getElem?_setIfInBounds_self_of_lt hlt
        by_cases hr : q ∈ rest
        · exact ih h hr hset hfits
        · exact ⟨hfits, (patch_of_notMem h hr).trans hset⟩
      · cases h
    · have hr : p ∈ rest := by
        rcases List.mem_cons.mp hp with heq | hr
        · exact absurd heq.symm hq
        · exact hr
      simp only [patch] at h
      split at h
      · exact ih h hr hcode hx
      · split at h
        · refine ih h hr ?_ hx
          rw [Array.getElem?_setIfInBounds_ne hq, hcode]
        · cases h

end Assembler
end ObjectMachine
