import Mathlib.Data.List.Induction
import ObjectMachine.Proofs.Assembler.Effects

/-!
# ObjectMachine.Proofs.Assembler.Labels

Jumps land on their labels: after any commands that the assembler accepts, and whether a label was
resolved before or after the jumps to it, the finished code has each jump with the address of its
label and every other word as it was emitted.

* `Assembler.Waits`, `Assembler.JumpsTo` — a position is noted with a label; a position holds a
  jump to a label.
* `Assembler.Linked` — the labels agree with the commands performed so far.
* `Assembler.Performs` — a command of a run, with the states before and after it.
* `Assembler.finished_jumps_land` — the result on whole runs.
-/

namespace ObjectMachine
namespace Assembler

variable {a b a' b' : Assembler} {c : Command} {cs : List Command} {i : Instr} {op : Op}
  {n p l : Nat} {checks : Bool}

/-! ### Positions and labels -/

/-- The position is noted with the label. -/
def Waits (a : Assembler) (p l : Nat) : Prop :=
  ∃ lab, a.labels[l]? = some lab ∧ p ∈ lab.pending

/-- The label has the address. -/
def Resolved (a : Assembler) (l addr : Nat) : Prop :=
  ∃ lab, a.labels[l]? = some lab ∧ lab.addr = some addr

/-- The position holds a jump: to the address of the label, or to zero and noted while the label
has none. -/
inductive JumpsTo (a : Assembler) (p : Nat) (op : Op) (l : Nat) : Prop where
  | landed {addr : Nat} (hl : a.Resolved l addr) (hfits : addr ≤ Instr.maxAddr)
      (hcode : a.unit.code[p]? = some (.jumpTo op addr))
  | waiting (hw : a.Waits p l) (hl : ∀ addr, ¬ a.Resolved l addr)
      (hcode : a.unit.code[p]? = some (.jumpTo op 0))

/-- Landed or not, the position has the word of a jump. -/
theorem JumpsTo.word (h : a.JumpsTo p op l) :
    ∃ addr, addr ≤ Instr.maxAddr ∧ a.unit.code[p]? = some (.jumpTo op addr) := by
  cases h with
  | landed _ hfits hcode => exact ⟨_, hfits, hcode⟩
  | waiting _ _ hcode => exact ⟨0, Nat.zero_le _, hcode⟩

theorem JumpsTo.lt_here (h : a.JumpsTo p op l) : p < a.here := by
  obtain ⟨addr, -, hcode⟩ := h.word
  exact (Array.getElem?_eq_some_iff.mp hcode).1

theorem labels_set {lab lab' : Label} {k : Nat} (hlab : a.labels[l]? = some lab)
    (hlabels : a'.labels = a.labels.setIfInBounds l lab') :
    a'.labels[k]? = if k = l then some lab' else a.labels[k]? := by
  have hlt : l < a.labels.size := (Array.getElem?_eq_some_iff.mp hlab).1
  rw [hlabels]
  by_cases hk : k = l
  · simp [hk, hlt]
  · simp [hk, Array.getElem?_setIfInBounds_ne (Ne.symm hk)]

theorem labels_push {k : Nat} (hlabels : a'.labels = a.labels.push {}) :
    a'.labels[k]? = if k = a.labels.size then some {} else a.labels[k]? := by
  rw [hlabels, Array.getElem?_push]

/-- Only a jump to an open label notes a position, its own; resolving the label clears it. -/
theorem Effect.waits (h : Effect a c n a') (hw : a'.Waits p l) :
    (a.Waits p l ∧ c ≠ .resolve l) ∨
      (p = a.here ∧ (∃ op, c = .jump op l) ∧ ∀ addr, ¬ a.Resolved l addr) := by
  obtain ⟨lab', hlab', hp⟩ := hw
  cases h with
  | word hword _ _ hlabels =>
    refine .inl ⟨⟨lab', hlabels ▸ hlab', hp⟩, ?_⟩
    rintro rfl
    simp [word?] at hword
  | back hc _ _ _ _ _ hlabels => exact .inl ⟨⟨lab', hlabels ▸ hlab', hp⟩, by simp [hc]⟩
  | pools _ _ hresolve _ hlabels => exact .inl ⟨⟨lab', hlabels ▸ hlab', hp⟩, hresolve l⟩
  | @ahead op k lab hc hlab haddr _ _ hlabels =>
    rw [labels_set hlab hlabels] at hlab'
    split at hlab'
    · next hl =>
      subst hl
      cases hlab'
      rcases List.mem_append.mp hp with hp | hp
      · exact .inl ⟨⟨lab, hlab, hp⟩, by simp [hc]⟩
      · refine .inr ⟨by simpa using hp, ⟨op, hc⟩, ?_⟩
        rintro addr ⟨lab₀, hlab₀, haddr₀⟩
        rw [hlab] at hlab₀
        cases hlab₀
        simp [haddr] at haddr₀
    · exact .inl ⟨⟨lab', hlab', hp⟩, by simp [hc]⟩
  | @resolve k lab hc hlab _ _ _ hlabels =>
    rw [labels_set hlab hlabels] at hlab'
    split at hlab'
    · cases hlab'
      simp at hp
    · next hl => exact .inl ⟨⟨lab', hlab', hp⟩, by simp [hc, Ne.symm hl]⟩
  | label hc _ hlabels =>
    rw [labels_push hlabels] at hlab'
    split at hlab'
    · cases hlab'
      simp at hp
    · exact .inl ⟨⟨lab', hlab', hp⟩, by simp [hc]⟩

/-- Only resolving a label gives it an address, the current one. -/
theorem Effect.resolved {addr : Nat} (h : Effect a c n a') (hr : a'.Resolved l addr) :
    a.Resolved l addr ∨ (c = .resolve l ∧ n = addr ∧ addr = a.here) := by
  obtain ⟨lab', hlab', haddr'⟩ := hr
  cases h with
  | word _ _ _ hlabels => exact .inl ⟨lab', hlabels ▸ hlab', haddr'⟩
  | back _ _ _ _ _ _ hlabels => exact .inl ⟨lab', hlabels ▸ hlab', haddr'⟩
  | pools _ _ _ _ hlabels => exact .inl ⟨lab', hlabels ▸ hlab', haddr'⟩
  | @ahead _ k lab _ hlab haddr _ _ hlabels =>
    rw [labels_set hlab hlabels] at hlab'
    split at hlab'
    · cases hlab'
      simp [haddr] at haddr'
    · exact .inl ⟨lab', hlab', haddr'⟩
  | resolve hc hlab _ hn _ hlabels =>
    rw [labels_set hlab hlabels] at hlab'
    split at hlab'
    · next hl =>
      subst hl
      cases hlab'
      cases haddr'
      exact .inr ⟨hc, hn, rfl⟩
    · exact .inl ⟨lab', hlab', haddr'⟩
  | label _ _ hlabels =>
    rw [labels_push hlabels] at hlab'
    split at hlab'
    · cases hlab'
      cases haddr'
    · exact .inl ⟨lab', hlab', haddr'⟩

/-- An address, once given, stays. -/
theorem Effect.resolved_mono {addr : Nat} (h : Effect a c n a') (hr : a.Resolved l addr) :
    a'.Resolved l addr := by
  obtain ⟨lab, hlab, haddr⟩ := hr
  have hlt : l < a.labels.size := (Array.getElem?_eq_some_iff.mp hlab).1
  cases h with
  | word _ _ _ hlabels => exact ⟨lab, hlabels ▸ hlab, haddr⟩
  | back _ _ _ _ _ _ hlabels => exact ⟨lab, hlabels ▸ hlab, haddr⟩
  | pools _ _ _ _ hlabels => exact ⟨lab, hlabels ▸ hlab, haddr⟩
  | @ahead _ k lab₀ _ hlab₀ hopen _ _ hlabels =>
    have hne : l ≠ k := by
      intro hl
      rw [hl, hlab₀] at hlab
      cases hlab
      simp [hopen] at haddr
    exact ⟨lab, by rw [labels_set hlab₀ hlabels, if_neg hne, hlab], haddr⟩
  | @resolve k lab₀ _ hlab₀ hopen _ _ hlabels =>
    have hne : l ≠ k := by
      intro hl
      rw [hl, hlab₀] at hlab
      cases hlab
      simp [hopen] at haddr
    exact ⟨lab, by rw [labels_set hlab₀ hlabels, if_neg hne, hlab], haddr⟩
  | label _ _ hlabels =>
    exact ⟨lab, by rw [labels_push hlabels, if_neg (by omega), hlab], haddr⟩

theorem Effect.resolved_resolve (h : Effect a (.resolve l) n a') : a'.Resolved l n := by
  obtain ⟨lab, hlab, -, hn, -, hlabels⟩ := h.of_resolve
  exact ⟨_, by rw [labels_set hlab hlabels, if_pos rfl], by rw [hn]⟩

/-- The code grows by at most one word, which a jump or a command with a word of its own emits. -/
theorem Effect.grows (h : Effect a c n a') :
    a'.here = a.here ∨ (n = a.here ∧ a'.here = a.here + 1 ∧
      ((∃ i, a.word? c = some i) ∨ ∃ op l, c = .jump op l)) := by
  cases h with
  | word hword hn hcode => exact .inr ⟨hn, by simp [here, hcode], .inl ⟨_, hword⟩⟩
  | back hc _ _ _ hn hcode => exact .inr ⟨hn, by simp [here, hcode], .inr ⟨_, _, hc⟩⟩
  | ahead hc _ _ hn hcode => exact .inr ⟨hn, by simp [here, hcode], .inr ⟨_, _, hc⟩⟩
  | resolve _ _ _ _ hpatch => exact .inl (patch_size hpatch)
  | label _ hcode => exact .inl (by simp [here, hcode])
  | pools _ _ _ hcode => exact .inl (by simp [here, hcode])

theorem Effect.here_le (h : Effect a c n a') : a.here ≤ a'.here := by
  rcases h.grows with heq | ⟨-, heq, -⟩ <;> omega

/-- A command changes no word already there, but for the jumps noted with a label it resolves. -/
theorem Effect.code_of_not_waits (h : Effect a c n a') (hp : p < a.here)
    (hw : ∀ l, c = .resolve l → ¬ a.Waits p l) : a'.unit.code[p]? = a.unit.code[p]? := by
  have hold : ∀ i, (a.unit.code.push i)[p]? = a.unit.code[p]? := by
    intro i
    rw [Array.getElem?_push, if_neg]
    exact Nat.ne_of_lt hp
  cases h with
  | word _ _ hcode => rw [hcode, hold]
  | back _ _ _ _ _ hcode => rw [hcode, hold]
  | ahead _ _ _ _ hcode => rw [hcode, hold]
  | @resolve k lab hc hlab _ _ hpatch =>
    exact patch_of_notMem hpatch (fun hmem => hw k hc ⟨lab, hlab, hmem⟩)
  | label _ hcode => rw [hcode]
  | pools _ _ _ hcode => rw [hcode]

theorem Effect.not_resolved {addr : Nat} (h : Effect a (.resolve l) n a') :
    ¬ a.Resolved l addr := by
  rintro ⟨lab, hlab, haddr⟩
  obtain ⟨lab₀, hlab₀, hopen, -⟩ := h.of_resolve
  rw [hlab₀] at hlab
  cases hlab
  simp [hopen] at haddr

/-- A position stays noted until its label is resolved. -/
theorem Effect.waits_mono (h : Effect a c n a') (hw : a.Waits p l) (hc : c ≠ .resolve l) :
    a'.Waits p l := by
  obtain ⟨lab, hlab, hp⟩ := hw
  have hlt : l < a.labels.size := (Array.getElem?_eq_some_iff.mp hlab).1
  cases h with
  | word _ _ _ hlabels => exact ⟨lab, hlabels ▸ hlab, hp⟩
  | back _ _ _ _ _ _ hlabels => exact ⟨lab, hlabels ▸ hlab, hp⟩
  | pools _ _ _ _ hlabels => exact ⟨lab, hlabels ▸ hlab, hp⟩
  | @ahead _ k lab₀ _ hlab₀ _ _ _ hlabels =>
    by_cases hl : l = k
    · subst hl
      rw [hlab₀] at hlab
      cases hlab
      exact ⟨_, by rw [labels_set hlab₀ hlabels, if_pos rfl], List.mem_append_left _ hp⟩
    · exact ⟨lab, by rw [labels_set hlab₀ hlabels, if_neg hl, hlab], hp⟩
  | @resolve k _ hk hlab₀ _ _ _ hlabels =>
    have hne : l ≠ k := fun hl => hc (hl ▸ hk)
    exact ⟨lab, by rw [labels_set hlab₀ hlabels, if_neg hne, hlab], hp⟩
  | label _ _ hlabels =>
    exact ⟨lab, by rw [labels_push hlabels, if_neg (by omega), hlab], hp⟩

/-- A jump stays one, and lands when its label is resolved. -/
theorem Effect.jumpsTo (h : Effect a c n a') (hj : a.JumpsTo p op l)
    (hown : ∀ k, a.Waits p k → k = l) : a'.JumpsTo p op l := by
  have hp := hj.lt_here
  cases hj with
  | @landed addr hl hfits hcode =>
    have hkeep : a'.unit.code[p]? = a.unit.code[p]? := by
      apply h.code_of_not_waits hp
      intro k hc hw
      cases hc
      cases hown k hw
      exact h.not_resolved hl
    exact .landed (h.resolved_mono hl) hfits (hkeep.trans hcode)
  | waiting hw hl hcode =>
    by_cases hc : c = .resolve l
    · subst hc
      obtain ⟨lab, hlab, -, hn, hpatch, -⟩ := h.of_resolve
      obtain ⟨lab', hlab', hmem⟩ := hw
      rw [hlab] at hlab'
      cases hlab'
      obtain ⟨hfits, hlanded⟩ := patch_of_mem hpatch hmem hcode (Nat.zero_le _)
      exact .landed (hn ▸ h.resolved_resolve) hfits hlanded
    · have hkeep : a'.unit.code[p]? = a.unit.code[p]? := by
        apply h.code_of_not_waits hp
        intro k hk hwk
        exact hc (hown k hwk ▸ hk)
      refine .waiting (h.waits_mono hw hc) ?_ (hkeep.trans hcode)
      intro addr hr
      rcases h.resolved hr with hr | ⟨hk, -⟩
      · exact hl addr hr
      · exact hc hk

theorem Effect.emits_word (h : Effect a c n a') (hword : a.word? c = some i) :
    n = a.here ∧ a'.unit.code = a.unit.code.push i := by
  cases h with
  | word hw hn hcode =>
    rw [hword] at hw
    cases hw
    exact ⟨hn, hcode⟩
  | back hc => simp [hc, word?] at hword
  | ahead hc => simp [hc, word?] at hword
  | resolve hc => simp [hc, word?] at hword
  | label hc => simp [hc, word?] at hword
  | pools hw => simp [hw] at hword

theorem Effect.emits_jump (h : Effect a (.jump op l) n a') : n = a.here ∧ a'.JumpsTo n op l := by
  have hlast : ∀ i, (a.unit.code.push i)[a.here]? = some i := by
    intro i
    simp [here]
  cases h with
  | back hc hlab haddr hfits hn hcode hlabels =>
    cases hc
    refine ⟨hn, .landed ⟨_, hlabels ▸ hlab, haddr⟩ hfits ?_⟩
    rw [hcode, hn, hlast]
  | ahead hc hlab haddr hn hcode hlabels =>
    cases hc
    have hlab' := (labels_set (k := l) hlab hlabels).trans (if_pos rfl)
    refine ⟨hn, .waiting ⟨_, hlab', by simp [hn]⟩ ?_ ?_⟩
    · rintro addr ⟨lab', hl, hr⟩
      rw [hlab'] at hl
      cases hl
      simp [haddr] at hr
    · rw [hcode, hn, hlast]
  | word hword => simp [word?] at hword
  | resolve hc => cases hc
  | label hc => cases hc
  | pools _ hjump => exact absurd rfl (hjump op l)

/-! ### Runs -/

/-- The labels agree with the commands performed so far. -/
structure Linked (cs : List Command) (a : Assembler) : Prop where
  sited : ∀ p l, a.Waits p l → p < a.here
  asked : ∀ p l, a.Waits p l → ∃ op, .jump op l ∈ cs
  unresolved : ∀ p l addr, a.Waits p l → ¬ a.Resolved l addr
  resolved : ∀ l, (∃ addr, a.Resolved l addr) ↔ .resolve l ∈ cs

theorem linked_start (name : String) : Linked [] (start name) where
  sited := by rintro p l ⟨lab, hlab, -⟩; simp [start] at hlab
  asked := by rintro p l ⟨lab, hlab, -⟩; simp [start] at hlab
  unresolved := by rintro p l addr ⟨lab, hlab, -⟩; simp [start] at hlab
  resolved := by
    intro l
    constructor
    · rintro ⟨addr, lab, hlab, -⟩
      simp [start] at hlab
    · intro h
      simp at h

theorem Linked.step (hl : Linked cs a) (h : Effect a c n a') : Linked (cs ++ [c]) a' where
  sited := by
    intro p l hw
    rcases h.waits hw with ⟨hw, -⟩ | ⟨rfl, ⟨op, rfl⟩, -⟩
    · exact Nat.lt_of_lt_of_le (hl.sited p l hw) h.here_le
    · obtain ⟨rfl, hj⟩ := h.emits_jump
      exact hj.lt_here
  asked := by
    intro p l hw
    rcases h.waits hw with ⟨hw, -⟩ | ⟨-, ⟨op, rfl⟩, -⟩
    · obtain ⟨op, hop⟩ := hl.asked p l hw
      exact ⟨op, List.mem_append_left _ hop⟩
    · exact ⟨op, by simp⟩
  unresolved := by
    intro p l addr hw hr
    rcases h.waits hw with ⟨hw, hc⟩ | ⟨-, ⟨op, rfl⟩, hopen⟩
    · rcases h.resolved hr with hr | ⟨hk, -⟩
      · exact hl.unresolved p l addr hw hr
      · exact hc hk
    · rcases h.resolved hr with hr | ⟨hk, -⟩
      · exact hopen addr hr
      · cases hk
  resolved := by
    intro l
    constructor
    · rintro ⟨addr, hr⟩
      rcases h.resolved hr with hr | ⟨rfl, -⟩
      · exact List.mem_append_left _ ((hl.resolved l).mp ⟨addr, hr⟩)
      · simp
    · intro hmem
      rcases List.mem_append.mp hmem with hmem | hmem
      · obtain ⟨addr, hr⟩ := (hl.resolved l).mpr hmem
        exact ⟨addr, h.resolved_mono hr⟩
      · cases List.mem_singleton.mp hmem
        exact ⟨n, h.resolved_resolve⟩

theorem applyAll_cons (h : a.applyAll (c :: cs) checks = .ok b) :
    ∃ n a', a.apply c checks = .ok (n, a') ∧ a'.applyAll cs checks = .ok b := by
  simp only [applyAll] at h
  split at h
  · next n a' ha => exact ⟨n, a', ha, h⟩
  · cases h

theorem applyAll_append : ∀ {before after : List Command} {a b : Assembler},
    a.applyAll (before ++ after) checks = .ok b →
      ∃ b', a.applyAll before checks = .ok b' ∧ b'.applyAll after checks = .ok b := by
  intro before after
  induction before with
  | nil => intro a b h; exact ⟨a, rfl, h⟩
  | cons c before ih =>
    intro a b h
    obtain ⟨n, a', ha, hrest⟩ := applyAll_cons h
    obtain ⟨b', hb', hafter⟩ := ih hrest
    exact ⟨b', by simp only [applyAll, ha, hb'], hafter⟩

theorem applyAll_linked : ∀ {more : List Command} {cs : List Command} {a b : Assembler},
    Linked cs a → a.applyAll more checks = .ok b → Linked (cs ++ more) b := by
  intro more
  induction more with
  | nil =>
    intro cs a b hl h
    cases h
    simpa using hl
  | cons c more ih =>
    intro cs a b hl h
    obtain ⟨n, a', ha, hrest⟩ := applyAll_cons h
    simpa using ih (hl.step (apply_effect ha)) hrest

theorem applyAll_resolved {addr : Nat} : ∀ {more : List Command} {a b : Assembler},
    a.Resolved l addr → a.applyAll more checks = .ok b → b.Resolved l addr := by
  intro more
  induction more with
  | nil =>
    intro a b hr h
    cases h
    exact hr
  | cons c more ih =>
    intro a b hr h
    obtain ⟨n, a', ha, hrest⟩ := applyAll_cons h
    exact ih ((apply_effect ha).resolved_mono hr) hrest

/-- No position inside the code is noted by a later command. -/
theorem Effect.waits_old (h : Effect a c n a') (hp : p < a.here) (hw : a'.Waits p l) :
    a.Waits p l := by
  rcases h.waits hw with ⟨hw, -⟩ | ⟨heq, -⟩
  · exact hw
  · omega

theorem applyAll_word : ∀ {more : List Command} {a b : Assembler},
    a.unit.code[p]? = some i → (∀ l, ¬ a.Waits p l) → a.applyAll more checks = .ok b →
      b.unit.code[p]? = some i := by
  intro more
  induction more with
  | nil =>
    intro a b hcode _ h
    cases h
    exact hcode
  | cons c more ih =>
    intro a b hcode hw h
    obtain ⟨n, a', ha, hrest⟩ := applyAll_cons h
    have he := apply_effect ha
    have hp : p < a.here := (Array.getElem?_eq_some_iff.mp hcode).1
    have hkeep := he.code_of_not_waits hp (fun l _ => hw l)
    exact ih (hkeep.trans hcode) (fun l hl => hw l (he.waits_old hp hl)) hrest

theorem applyAll_jumpsTo : ∀ {more : List Command} {a b : Assembler},
    a.JumpsTo p op l → (∀ k, a.Waits p k → k = l) → a.applyAll more checks = .ok b →
      b.JumpsTo p op l := by
  intro more
  induction more with
  | nil =>
    intro a b hj _ h
    cases h
    exact hj
  | cons c more ih =>
    intro a b hj hown h
    obtain ⟨n, a', ha, hrest⟩ := applyAll_cons h
    have he := apply_effect ha
    exact ih (he.jumpsTo hj hown) (fun k hk => hown k (he.waits_old hj.lt_here hk)) hrest

/-! ### Finished units -/

theorem firstPending?_eq_none : ∀ {ls : List Label} {k : Nat},
    firstPending? k ls = none ↔ ∀ lab ∈ ls, lab.pending = [] := by
  intro ls
  induction ls with
  | nil => simp [firstPending?]
  | cons lab rest ih =>
    intro k
    by_cases hlab : lab.pending = []
    · simp [firstPending?, hlab, ih]
    · simp [firstPending?, hlab]

theorem finish_eq_ok {u : CodeUnit} :
    a.finish = .ok u ↔ u = a.unit ∧ ∀ p l, ¬ a.Waits p l := by
  have hnone : firstPending? 0 a.labels.toList = none ↔ ∀ p l, ¬ a.Waits p l := by
    rw [firstPending?_eq_none]
    constructor
    · rintro h p l ⟨lab, hlab, hp⟩
      have hmem : lab ∈ a.labels := Array.mem_of_getElem? hlab
      simp [h lab (by simpa using hmem)] at hp
    · intro h lab hmem
      obtain ⟨l, hl⟩ := Array.getElem?_of_mem (by simpa using hmem : lab ∈ a.labels)
      apply List.eq_nil_iff_forall_not_mem.mpr
      intro p hp
      exact h p l ⟨lab, hl, hp⟩
  unfold finish
  split
  · next hsome =>
    have hno : ¬ ∀ p l, ¬ a.Waits p l := fun h => by simp [hnone.mpr h] at hsome
    simp [hno]
  · next h =>
    constructor
    · intro hu
      cases hu
      exact ⟨rfl, hnone.mp h⟩
    · rintro ⟨rfl, -⟩
      rfl

theorem applyAll_of_assemble {name : String} {u : CodeUnit}
    (h : assemble name cs checks = .ok u) :
    ∃ a, (start name).applyAll cs checks = .ok a ∧ a.unit = u := by
  unfold assemble at h
  split at h
  · next a ha => exact ⟨a, ha, (finish_eq_ok.mp h).1.symm⟩
  · cases h

/-- In the run of `cs`, once the commands `before` have led to `b`, the command `c` is performed
next and answers `n`. -/
def Performs (checks : Bool) (name : String) (cs before : List Command) (b : Assembler)
    (c : Command) (n : Nat) (b' : Assembler) : Prop :=
  before ++ [c] <+: cs ∧ (start name).applyAll before checks = .ok b ∧
    b.apply c checks = .ok (n, b')

section Whole

variable {name : String} {before : List Command}

theorem Performs.rest (h : Performs checks name cs before b c n b')
    (hrun : (start name).applyAll cs checks = .ok a) :
    ∃ after, b'.applyAll after checks = .ok a := by
  obtain ⟨⟨after, rfl⟩, hb, hc⟩ := h
  rw [List.append_assoc] at hrun
  obtain ⟨b₁, hb₁, hrest⟩ := applyAll_append hrun
  rw [hb] at hb₁
  cases hb₁
  obtain ⟨m, b₂, hc₂, hafter⟩ := applyAll_cons hrest
  rw [hc] at hc₂
  cases hc₂
  exact ⟨after, hafter⟩

theorem Performs.linked (h : Performs checks name cs before b c n b') : Linked before b := by
  simpa using applyAll_linked (linked_start name) h.2.1

theorem Performs.jumpsTo (h : Performs checks name cs before b (.jump op l) n b')
    (hrun : (start name).applyAll cs checks = .ok a) : a.JumpsTo n op l := by
  obtain ⟨after, hafter⟩ := h.rest hrun
  have he := apply_effect h.2.2
  obtain ⟨hn, hj⟩ := he.emits_jump
  refine applyAll_jumpsTo hj ?_ hafter
  intro k hk
  rcases he.waits hk with ⟨hk, -⟩ | ⟨-, ⟨op', hop'⟩, -⟩
  · have := h.linked.sited n k hk
    omega
  · cases hop'
    rfl

theorem Performs.word (h : Performs checks name cs before b c n b') (hword : b.word? c = some i)
    (hrun : (start name).applyAll cs checks = .ok a) : n = b.here ∧ a.unit.code[n]? = some i := by
  obtain ⟨after, hafter⟩ := h.rest hrun
  have he := apply_effect h.2.2
  obtain ⟨hn, hcode⟩ := he.emits_word hword
  refine ⟨hn, applyAll_word ?_ ?_ hafter⟩
  · simp [hcode, hn, here]
  · intro l hl
    rcases he.waits hl with ⟨hl, -⟩ | ⟨-, ⟨op, rfl⟩, -⟩
    · have := h.linked.sited n l hl
      omega
    · simp [word?] at hword

theorem Performs.resolved (h : Performs checks name cs before b (.resolve l) n b')
    (hrun : (start name).applyAll cs checks = .ok a) : n = b.here ∧ a.Resolved l n := by
  obtain ⟨after, hafter⟩ := h.rest hrun
  have he := apply_effect h.2.2
  obtain ⟨-, -, -, hn, -⟩ := he.of_resolve
  exact ⟨hn, applyAll_resolved he.resolved_resolve hafter⟩

/-- A command of the run is performed at its place. -/
theorem performs_of_mem (hrun : (start name).applyAll cs checks = .ok a) (hc : c ∈ cs) :
    ∃ before b n b', Performs checks name cs before b c n b' := by
  obtain ⟨before, after, rfl⟩ := List.append_of_mem hc
  obtain ⟨b, hb, hrest⟩ := applyAll_append hrun
  obtain ⟨n, b', hcmd, -⟩ := applyAll_cons hrest
  exact ⟨before, b, n, b', ⟨after, by simp⟩, hb, hcmd⟩

/-- Every position was answered by the command that emitted its word. -/
theorem performs_of_lt (hrun : (start name).applyAll cs checks = .ok a) (hp : p < a.here) :
    ∃ before b c b', Performs checks name cs before b c p b' ∧
      ((∃ i, b.word? c = some i) ∨ ∃ op l, c = .jump op l) := by
  induction cs using List.reverseRecOn generalizing a with
  | nil =>
    cases hrun
    simp [here, start] at hp
  | append_singleton cs c ih =>
    obtain ⟨b, hb, hlast⟩ := applyAll_append hrun
    obtain ⟨n, b', hc, hdone⟩ := applyAll_cons hlast
    cases hdone
    by_cases hold : p < b.here
    · obtain ⟨before, b₀, c₀, b₀', ⟨hpre, hrest⟩, hemits⟩ := ih hb hold
      exact ⟨before, b₀, c₀, b₀', ⟨hpre.trans (List.prefix_append cs [c]), hrest⟩, hemits⟩
    · rcases (apply_effect hc).grows with heq | ⟨hn, heq, hemits⟩
      · omega
      · have hpn : p = n := by omega
        subst hpn
        exact ⟨cs, b, c, a, ⟨List.prefix_rfl, hb, hc⟩, hemits⟩

/-- Without a jump to the label so far, resolving it leaves the code as it is. -/
theorem Performs.code_resolve (h : Performs checks name cs before b (.resolve l) n b')
    (hnone : ∀ op, .jump op l ∉ before) : b'.unit.code = b.unit.code := by
  have hidle : ∀ p, ¬ b.Waits p l := by
    intro p hw
    obtain ⟨op, hop⟩ := h.linked.asked p l hw
    exact hnone op hop
  obtain ⟨lab, hlab, -, -, hpatch, -⟩ := (apply_effect h.2.2).of_resolve
  have hnil : lab.pending = [] :=
    List.eq_nil_iff_forall_not_mem.mpr fun p hp => hidle p ⟨lab, hlab, hp⟩
  rw [hnil] at hpatch
  exact (Except.ok.inj hpatch).symm

theorem waits_iff (hrun : (start name).applyAll cs checks = .ok a) :
    (∃ p, a.Waits p l) ↔ (∃ op, .jump op l ∈ cs) ∧ .resolve l ∉ cs := by
  have hl : Linked cs a := by simpa using applyAll_linked (linked_start name) hrun
  constructor
  · rintro ⟨p, hw⟩
    refine ⟨hl.asked p l hw, fun hmem => ?_⟩
    obtain ⟨addr, hr⟩ := (hl.resolved l).mpr hmem
    exact hl.unresolved p l addr hw hr
  · rintro ⟨⟨op, hop⟩, hnever⟩
    obtain ⟨before, b, n, b', hperf⟩ := performs_of_mem hrun hop
    cases hperf.jumpsTo hrun with
    | landed hr => exact absurd ((hl.resolved l).mp ⟨_, hr⟩) hnever
    | waiting hw => exact ⟨n, hw⟩

/-- The unit has at `p` a jump `op` to the label: some command of the run resolved the label, and
the operand is the address at which it did. -/
def Lands (checks : Bool) (name : String) (cs : List Command) (u : CodeUnit) (op : Op)
    (l p : Nat) : Prop :=
  ∃ i, u.code[p]? = some i ∧ i.op? = some op ∧
    (∃ before b n b', Performs checks name cs before b (.resolve l) n b') ∧
    ∀ before b n b', Performs checks name cs before b (.resolve l) n b' → i.operand = b.here

theorem Performs.lands (h : Performs checks name cs before b (.jump op l) p b')
    (hrun : (start name).applyAll cs checks = .ok a) (hidle : ∀ p l, ¬ a.Waits p l) :
    Lands checks name cs a.unit op l p := by
  have hl : Linked cs a := by simpa using applyAll_linked (linked_start name) hrun
  cases h.jumpsTo hrun with
  | waiting hw => exact absurd hw (hidle p l)
  | @landed addr hr hfits hcode =>
    refine ⟨_, hcode, Instr.op?_jumpTo op hfits,
      performs_of_mem hrun ((hl.resolved l).mp ⟨addr, hr⟩), ?_⟩
    intro before' r n r' hres
    obtain ⟨hn, lab, hlab, haddr⟩ := hres.resolved hrun
    obtain ⟨lab', hlab', haddr'⟩ := hr
    rw [hlab] at hlab'
    cases hlab'
    rw [haddr] at haddr'
    cases haddr'
    rw [Instr.operand_jumpTo op hfits, hn]

/-- Over every run, whether or not formats are checked: a finished unit has each jump on its label
and every other word as emitted, with no word besides; resolving a label nobody jumped to so far
changes no word; and the unit is refused exactly when some label is jumped to and never resolved. -/
theorem finished_jumps_land (checks : Bool) (name : String) (cs : List Command) (a : Assembler)
    (hrun : (start name).applyAll cs checks = .ok a) :
    (∀ u, a.finish = .ok u →
      (∀ before b op l p b', Performs checks name cs before b (.jump op l) p b' →
        p = b.here ∧ Lands checks name cs u op l p) ∧
      (∀ before b c p b' i, Performs checks name cs before b c p b' → b.word? c = some i →
        p = b.here ∧ u.code[p]? = some i) ∧
      (∀ p, p < u.code.size → ∃ before b c b', Performs checks name cs before b c p b' ∧
        ((∃ i, b.word? c = some i) ∨ ∃ op l, c = .jump op l))) ∧
    (∀ before b l n b', Performs checks name cs before b (.resolve l) n b' →
      (∀ op, .jump op l ∉ before) → b'.unit.code = b.unit.code) ∧
    ((∃ e, a.finish = .error e) ↔ ∃ op l, .jump op l ∈ cs ∧ .resolve l ∉ cs) := by
  refine ⟨?_, fun _ _ _ _ _ h hnone => h.code_resolve hnone, ?_⟩
  · intro u hu
    obtain ⟨rfl, hidle⟩ := finish_eq_ok.mp hu
    refine ⟨?_, fun _ _ _ _ _ _ h hword => h.word hword hrun, fun _ hp => performs_of_lt hrun hp⟩
    intro before b op l p b' h
    exact ⟨(apply_effect h.2.2).emits_jump.1, h.lands hrun hidle⟩
  · constructor
    · rintro ⟨e, he⟩
      by_contra hnone
      have hidle : ∀ p l, ¬ a.Waits p l := by
        intro p l hw
        obtain ⟨⟨op, hop⟩, hnever⟩ := (waits_iff hrun).mp ⟨p, hw⟩
        exact hnone ⟨op, l, hop, hnever⟩
      rw [finish_eq_ok.mpr ⟨rfl, hidle⟩] at he
      cases he
    · rintro ⟨op, l, hop, hnever⟩
      obtain ⟨p, hw⟩ := (waits_iff hrun).mpr ⟨⟨op, hop⟩, hnever⟩
      cases hf : a.finish with
      | error e => exact ⟨e, rfl⟩
      | ok u => exact absurd hw ((finish_eq_ok.mp hf).2 p l)

/-- A loop left by a jump ahead: the test at 1 leaves for the end at 4, the jump at 3 returns to
the start at 0. -/
theorem finished_jumps_land_loop :
    let cs : List Command := [.label, .label, .resolve 0, .emit .pushNil, .jump .jumpIfFalse 1,
      .emit .pop, .jump .jump 0, .resolve 1, .emit .ret]
    ∃ u, assemble "loop" cs = .ok u ∧ u.code.size = 5 ∧
      Lands true "loop" cs u .jumpIfFalse 1 1 ∧ Lands true "loop" cs u .jump 0 3 := by
  intro cs
  have h := finished_jumps_land true "loop" cs _ rfl
  have hunit := h.1 _ rfl
  refine ⟨_, rfl, rfl, (hunit.1 (cs.take 4) _ _ _ _ _ ⟨?_, rfl, rfl⟩).2,
    (hunit.1 (cs.take 6) _ _ _ _ _ ⟨?_, rfl, rfl⟩).2⟩
  · exact ⟨cs.drop 5, rfl⟩
  · exact ⟨cs.drop 7, rfl⟩

end Whole

end Assembler
end ObjectMachine
