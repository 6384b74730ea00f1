import ObjectMachine.Proofs.Tasks.Threads

/-!
# ObjectMachine.Proofs.Tasks.Lives

What holds of the threads of tasks after every step, whatever the order of the steps.

A thread that starts or awaits a task relies on the lock of that task, and on what only the owner
of the lock may change. The main thread, when it waits for all others, relies on the list of tasks:
a task is on it, or the main thread has taken it off, or the thread that started the task will put
it there.

* `Threads.Sound` — the invariant.
* `Threads.Effect` — what the step of one thread can do to all others.
* `Threads.Sound.of_effect` — an invariant state after a step that keeps to its effect.
* `Threads.Waiter` — a thread that waits for a task, be it to join it or to end the system.
* `Threads.Sound.step`, `Threads.Sound.run` — every step, and so every run, keeps the invariant.
-/

namespace ObjectMachine

/-- The tasks that a thread has taken off the list and still has to wait for. -/
def Stage.pending : Stage → List Nat
  | .examining pending _ => pending
  | .awaiting n _ pending _ => n :: pending
  | _ => []

/-- What is to be seen of a task whose thread stands at a stage. -/
def Shared.Suits (x : Shared) : Stage → Prop
  | .unborn | .started => x.state = .created ∧ x.ending = none
  | .finishing => x.state = .running ∧ x.ending.isSome
  | .leaving => x.state = .finished ∧ x.ending.isSome
  | .exited => (x.state = .finished ∨ x.state = .joined) ∧ x.ending.isSome
  | _ => x.state = .running ∧ x.ending = none

namespace Threads

/-! ## What a thread relies on -/

/-- What thread `p` relies on while it waits for task `n`. -/
def Waits (s : Threads) (p n : Nat) : Waiting → Prop
  | .lock => True
  | .take => (s.shared n).lock = some p ∧ ((s.shared n).handle = true ∨ s.stage n = .exited)
  | .exit =>
    (s.shared n).lock = some p ∧ (s.shared n).handle = false ∧ (s.shared n).state ≠ .joined
  | .mark =>
    (s.shared n).lock = some p ∧ (s.shared n).handle = false ∧ (s.shared n).state ≠ .joined ∧
      s.stage n = .exited
  | .unlock => (s.shared n).lock = some p ∧ s.stage n = .exited
  | .read => s.stage n = .exited

/-- What thread `p` relies on while it starts the thread of task `n`. -/
def Spawns (s : Threads) (p n : Nat) : Spawning → Prop
  | .start => (s.shared n).lock = some p ∧ (s.shared n).state ≠ .joined ∧ s.stage n = .unborn
  | .store => (s.shared n).lock = some p ∧ (s.shared n).state ≠ .joined
  | .unlock => (s.shared n).lock = some p ∧ (s.shared n).handle = true
  | .track => True

/-- What thread `p` relies on at a stage. -/
def Relies (s : Threads) (p : Nat) : Stage → Prop
  | .spawning n phase => p < n ∧ n < s.size ∧ s.Spawns p n phase
  | .joining n phase => 0 < n ∧ n < s.size ∧ s.Waits p n phase
  | .untracking n seen => s.stage n = .exited ∧ seen = (s.shared n).ending
  | .collecting _ | .examining _ _ => p = 0
  | .awaiting n phase _ _ => p = 0 ∧ s.Waits p n phase
  | .departing _ => p = 0 ∧ s.unjoined = [] ∧ ∀ n, 0 < n → n < s.size → s.stage n = .exited
  | _ => True

structure Sound (s : Threads) : Prop where
  suits : ∀ n, (s.shared n).Suits (s.stage n)
  relies : ∀ p, s.Relies p (s.stage p)
  /-- Whoever gets the lock finds the handle, unless the thread has exited. -/
  unlocked : ∀ n, 0 < n → n < s.size → (s.shared n).lock = none →
    (s.shared n).handle = true ∨ s.stage n = .exited
  handle : ∀ n, (s.shared n).handle = true → (s.shared n).state ≠ .joined
  beyond : ∀ n, s.size ≤ n → s.stage n = .unborn ∧ s.shared n = {}
  listed : ∀ n, n ∈ s.unjoined ∨ n ∈ (s.stage 0).pending → 0 < n ∧ n < s.size
  /-- The main thread knows of every task that goes on, or will be told by the one who starts it. -/
  tracked : ∀ n, 0 < n → n < s.size → s.stage n = .exited ∨ n ∈ s.unjoined ∨
    n ∈ (s.stage 0).pending ∨ ∃ p phase, s.stage p = .spawning n phase
  fault : ∀ n, s.fault ≠ some (.noOutcome n)

/-! ## What a step does to the other threads -/

/-- What the others can rely on when thread `t` makes a step. -/
structure Effect (t : Nat) (s s' : Threads) : Prop where
  awake : s.stage t ≠ .unborn ∧ s.stage t ≠ .exited
  size : s.size ≤ s'.size
  /-- The thread of another task is at most started, by the one who has its lock. -/
  stage : ∀ p, p ≠ t → s'.stage p = s.stage p ∨
    s.stage p = .unborn ∧ (s.shared p).lock = some t ∧ s'.stage p = .started
  /-- What is locked by another thread is left alone. -/
  lock : ∀ n p, p ≠ t → (s.shared n).lock = some p →
    (s'.shared n).lock = some p ∧ (s'.shared n).handle = (s.shared n).handle
  /-- Another task is at most marked as joined, when it has exited, by the one who has its lock. -/
  others : ∀ n, n ≠ t → (s'.shared n).ending = (s.shared n).ending ∧
    ((s'.shared n).state = (s.shared n).state ∨ s.stage n = .exited ∧
      (s.shared n).lock = some t ∧ (s.shared n).state = .finished ∧ (s'.shared n).state = .joined)
  own : (s'.shared t).state = (s.shared t).state ∨
    (s.shared t).state = .created ∧ (s'.shared t).state = .running ∨
    (s.shared t).state = .running ∧ (s'.shared t).state = .finished
  unlocked : ∀ n, (s'.shared n).lock = none →
    (s.shared n).lock = none ∧ (s'.shared n).handle = (s.shared n).handle ∨
    (s'.shared n).handle = true ∨ s.stage n = .exited
  handle : ∀ n, (s'.shared n).handle = true → (s'.shared n).state ≠ .joined
  beyond : ∀ n, s'.size ≤ n → s'.stage n = .unborn ∧ s'.shared n = {}

namespace Effect

variable {s s' : Threads} {t n : Nat}

theorem exited (he : Effect t s s') {n : Nat} (hn : s.stage n = .exited) :
    s'.stage n = .exited ∧ (s'.shared n).ending = (s.shared n).ending := by
  have hne : n ≠ t := by
    rintro rfl
    exact he.awake.2 hn
  refine ⟨?_, (he.others n hne).1⟩
  rcases he.stage n hne with h | ⟨h, -, -⟩
  · rw [h, hn]
  · rw [hn] at h
    cases h

theorem state_of_lock (he : Effect t s s') {n p : Nat} (hp : p ≠ t)
    (hn : (s.shared n).lock = some p) (hj : (s.shared n).state ≠ .joined) :
    (s'.shared n).state ≠ .joined := by
  by_cases hnt : n = t
  · subst hnt
    rcases he.own with h | ⟨-, h⟩ | ⟨-, h⟩
    · rwa [h]
    · rw [h]; nofun
    · rw [h]; nofun
  · rcases (he.others n hnt).2 with h | ⟨-, hlock, -⟩
    · rwa [h]
    · rw [hn] at hlock
      exact absurd (Option.some.inj hlock) hp

theorem waits (he : Effect t s s') {n p : Nat} (hp : p ≠ t) {phase : Waiting}
    (h : s.Waits p n phase) : s'.Waits p n phase := by
  cases phase with
  | lock => trivial
  | take =>
    obtain ⟨hlock, hor⟩ := h
    obtain ⟨hlock', hhandle⟩ := he.lock n p hp hlock
    exact ⟨hlock', hor.imp (hhandle.trans ·) fun hx => (he.exited hx).1⟩
  | exit =>
    obtain ⟨hlock, hfalse, hj⟩ := h
    obtain ⟨hlock', hhandle⟩ := he.lock n p hp hlock
    exact ⟨hlock', hhandle.trans hfalse, he.state_of_lock hp hlock hj⟩
  | mark =>
    obtain ⟨hlock, hfalse, hj, hx⟩ := h
    obtain ⟨hlock', hhandle⟩ := he.lock n p hp hlock
    exact ⟨hlock', hhandle.trans hfalse, he.state_of_lock hp hlock hj, (he.exited hx).1⟩
  | unlock => exact ⟨(he.lock n p hp h.1).1, (he.exited h.2).1⟩
  | read => exact (he.exited h).1

theorem spawns (he : Effect t s s') {n p : Nat} (hp : p ≠ t) {phase : Spawning}
    (h : s.Spawns p n phase) : s'.Spawns p n phase := by
  cases phase with
  | start =>
    obtain ⟨hlock, hj, hu⟩ := h
    refine ⟨(he.lock n p hp hlock).1, he.state_of_lock hp hlock hj, ?_⟩
    have hne : n ≠ t := by
      rintro rfl
      exact he.awake.1 hu
    rcases he.stage n hne with h | ⟨-, hlock', -⟩
    · rw [h, hu]
    · rw [hlock] at hlock'
      exact absurd (Option.some.inj hlock') hp
  | store => exact ⟨(he.lock n p hp h.1).1, he.state_of_lock hp h.1 h.2⟩
  | unlock =>
    obtain ⟨hlock', hhandle⟩ := he.lock n p hp h.1
    exact ⟨hlock', hhandle.trans h.2⟩
  | track => trivial

/-- What a thread relies on is not taken from it by others. -/
theorem relies (he : Effect t s s') (hs : s.Sound) {p : Nat} (hp : p ≠ t) {g : Stage}
    (h : s.Relies p g) : s'.Relies p g := by
  cases g with
  | spawning n phase => exact ⟨h.1, Nat.lt_of_lt_of_le h.2.1 he.size, he.spawns hp h.2.2⟩
  | joining n phase => exact ⟨h.1, Nat.lt_of_lt_of_le h.2.1 he.size, he.waits hp h.2.2⟩
  | untracking n seen =>
    obtain ⟨hx, hending⟩ := he.exited h.1
    exact ⟨hx, h.2.trans hending.symm⟩
  | awaiting n phase pending waited => exact ⟨h.1, he.waits hp h.2⟩
  | departing waited =>
    -- all others have exited, so there is none that could make a step
    obtain ⟨rfl, -, hall⟩ := h
    rcases Nat.lt_or_ge t s.size with hlt | hge
    · exact absurd (hall t (Nat.pos_of_ne_zero hp.symm) hlt) he.awake.2
    · exact absurd (hs.beyond t hge).1 he.awake.1
  | _ => exact h

/-- The other tasks still look as their threads stand. -/
theorem suits (he : Effect t s s') (hs : s.Sound) {n : Nat} (hn : n ≠ t) :
    (s'.shared n).Suits (s'.stage n) := by
  have hsuits := hs.suits n
  obtain ⟨hending, hstate⟩ := he.others n hn
  rcases hstate with hstate | ⟨hx, -, -, hstate⟩
  · have hkeep : ∀ g, (s.shared n).Suits g → (s'.shared n).Suits g := by
      intro g hg
      cases g <;> simpa only [Shared.Suits, hstate, hending] using hg
    rcases he.stage n hn with h | ⟨hu, -, h⟩
    · rw [h]
      exact hkeep _ hsuits
    · rw [hu] at hsuits
      rw [h]
      exact hkeep .started hsuits
  · rw [hx] at hsuits
    rw [(he.exited hx).1]
    exact ⟨.inr hstate, hending ▸ hsuits.2⟩

/-! Steps by what they change. -/

theorem move (h : s.Sound) (ha : s.stage t ≠ .unborn ∧ s.stage t ≠ .exited) (g : Stage) :
    Effect t s (s.move t g) where
  awake := ha
  size := Nat.le_refl _
  stage p hp := .inl (stage_move_ne hp g)
  lock n p _ hlock := ⟨hlock, rfl⟩
  others n _ := ⟨rfl, .inl rfl⟩
  own := .inl rfl
  unlocked n hlock := .inl ⟨hlock, rfl⟩
  handle := h.handle
  beyond n hn := by
    obtain ⟨hstage, hshared⟩ := h.beyond n hn
    have hne : n ≠ t := by
      rintro rfl
      exact ha.1 hstage
    exact ⟨(stage_move_ne hne g).trans hstage, hshared⟩

/-- A step that sets what is shared of one task, which may be new. -/
theorem set (h : s.Sound) (ha : s.stage t ≠ .unborn ∧ s.stage t ≠ .exited) (g : Stage)
    {size : Nat} {x : Shared} (hsize : s.size ≤ size) (hn : n < size)
    (hlock : ∀ p, p ≠ t → (s.shared n).lock = some p →
      x.lock = some p ∧ x.handle = (s.shared n).handle)
    (hother : n ≠ t → x.ending = (s.shared n).ending ∧ (x.state = (s.shared n).state ∨
      s.stage n = .exited ∧ (s.shared n).lock = some t ∧ (s.shared n).state = .finished ∧
        x.state = .joined))
    (hown : n = t → x.state = (s.shared n).state ∨
      (s.shared n).state = .created ∧ x.state = .running ∨
      (s.shared n).state = .running ∧ x.state = .finished)
    (hfree : x.lock = none → (s.shared n).lock = none ∧ x.handle = (s.shared n).handle ∨
      x.handle = true ∨ s.stage n = .exited)
    (hhandle : x.handle = true → x.state ≠ .joined) :
    Effect t s ({ s with size, shared := Function.update s.shared n x }.move t g) := by
  have hmove := move h ha g
  have hself : ({ s with size, shared := Function.update s.shared n x }.move t g).shared n = x :=
    Function.update_self ..
  have hrest : ∀ m, m ≠ n →
      ({ s with size, shared := Function.update s.shared n x }.move t g).shared m = s.shared m :=
    fun m hm => Function.update_of_ne hm ..
  refine ⟨ha, hsize, hmove.stage, ?_, ?_, ?_, ?_, ?_, ?_⟩
  · intro m p hp hm
    by_cases hmn : m = n
    · subst hmn
      rw [hself]
      exact hlock p hp hm
    · rw [hrest m hmn]
      exact ⟨hm, rfl⟩
  · intro m hm
    by_cases hmn : m = n
    · subst hmn
      rw [hself]
      exact hother hm
    · rw [hrest m hmn]
      exact ⟨rfl, .inl rfl⟩
  · by_cases htn : t = n
    · subst htn
      rw [hself]
      exact hown rfl
    · rw [hrest t htn]
      exact .inl rfl
  · intro m hm
    by_cases hmn : m = n
    · subst hmn
      rw [hself] at hm ⊢
      exact hfree hm
    · rw [hrest m hmn] at hm ⊢
      exact .inl ⟨hm, rfl⟩
  · intro m hm
    by_cases hmn : m = n
    · subst hmn
      rw [hself] at hm ⊢
      exact hhandle hm
    · rw [hrest m hmn] at hm ⊢
      exact h.handle m hm
  · intro m hm
    have hmn : m ≠ n := fun hmn => absurd (hmn ▸ hn) (Nat.not_lt.mpr hm)
    have hle := Nat.le_trans hsize hm
    rw [hrest m hmn]
    exact ⟨(hmove.beyond m hle).1, (h.beyond m hle).2⟩

/-- A change to a task of which the thread has the lock, or gets it. -/
theorem change (h : s.Sound) (ha : s.stage t ≠ .unborn ∧ s.stage t ≠ .exited) {n : Nat}
    (hn : n < s.size) {f : Shared → Shared} (g : Stage)
    (hlock : (s.shared n).lock = some t ∨
      (s.shared n).lock = none ∧ (f (s.shared n)).lock = some t)
    (hending : (f (s.shared n)).ending = (s.shared n).ending)
    (hstate : (f (s.shared n)).state = (s.shared n).state ∨ s.stage n = .exited ∧
      (s.shared n).lock = some t ∧ (s.shared n).state = .finished ∧
      (f (s.shared n)).state = .joined)
    (hfree : (f (s.shared n)).lock = none →
      (f (s.shared n)).handle = true ∨ s.stage n = .exited)
    (hhandle : (f (s.shared n)).handle = true → (f (s.shared n)).state ≠ .joined) :
    Effect t s ((s.change n f).move t g) := by
  refine set h ha g (Nat.le_refl _) hn (fun p hp hm => ?_) (fun _ => ⟨hending, hstate⟩)
    (fun hnt => .inl (hstate.resolve_right fun hx => ha.2 (hnt ▸ hx.1)))
    (fun hnone => .inr (hfree hnone)) hhandle
  rw [hm] at hlock
  rcases hlock with hlock | ⟨hlock, -⟩
  · exact absurd (Option.some.inj hlock) hp
  · cases hlock

/-- A change to what the thread shows of its own task. -/
theorem tell (h : s.Sound) (ha : s.stage t ≠ .unborn ∧ s.stage t ≠ .exited)
    {f : Shared → Shared} (g : Stage)
    (hlock : (f (s.shared t)).lock = (s.shared t).lock)
    (hhandle : (f (s.shared t)).handle = (s.shared t).handle)
    (hstate : (f (s.shared t)).state = (s.shared t).state ∨
      (s.shared t).state = .created ∧ (f (s.shared t)).state = .running ∨
      (s.shared t).state = .running ∧ (f (s.shared t)).state = .finished) :
    Effect t s ((s.change t f).move t g) := by
  have hlt : t < s.size := Nat.lt_of_not_le fun hle => ha.1 (h.beyond t hle).1
  refine set h ha g (Nat.le_refl _) hlt (fun p _ hm => ⟨hlock.trans hm, hhandle⟩)
    (fun hne => absurd rfl hne) (fun _ => hstate)
    (fun hnone => .inl ⟨hlock.symm.trans hnone, hhandle⟩) fun htrue => ?_
  rcases hstate with hs | ⟨-, hs⟩ | ⟨-, hs⟩
  · rw [hs]
    exact h.handle t (hhandle.symm.trans htrue)
  · rw [hs]
    nofun
  · rw [hs]
    nofun

/-- The list of tasks is no concern of the others. -/
theorem relist (he : Effect t s s') (l : List Nat) : Effect t s { s' with unjoined := l } :=
  ⟨he.awake, he.size, he.stage, he.lock, he.others, he.own, he.unlocked, he.handle, he.beyond⟩

theorem stop (h : s.Sound) (ha : s.stage t ≠ .unborn ∧ s.stage t ≠ .exited) (f : Fatal) :
    Effect t s { s with fault := some f } :=
  ⟨ha, Nat.le_refl _, fun _ _ => .inl rfl, fun _ _ _ hlock => ⟨hlock, rfl⟩,
    fun _ _ => ⟨rfl, .inl rfl⟩, .inl rfl, fun _ hlock => .inl ⟨hlock, rfl⟩, h.handle, h.beyond⟩

/-- The thread of a task is started by the one who has its lock. -/
theorem start (h : s.Sound) (ha : s.stage t ≠ .unborn ∧ s.stage t ≠ .exited) (hn : n < s.size)
    (hlock : (s.shared n).lock = some t) (hu : s.stage n = .unborn) (g : Stage) :
    Effect t s ((s.move n .started).move t g) := by
  refine { move h ha g with stage := ?_, beyond := ?_ }
  · intro p hp
    rw [stage_move_ne hp]
    by_cases hpn : p = n
    · subst hpn
      exact .inr ⟨hu, hlock, stage_move_self ..⟩
    · exact .inl (stage_move_ne hpn _)
  · intro m hm
    obtain ⟨hstage, hshared⟩ := h.beyond m hm
    have hmn : m ≠ n := fun hmn => absurd (hmn ▸ hn) (Nat.not_lt.mpr hm)
    have hmt : m ≠ t := by
      rintro rfl
      exact ha.1 hstage
    rw [stage_move_ne hmt, stage_move_ne hmn]
    exact ⟨hstage, hshared⟩

/-- A new task is locked by the one who makes it. -/
theorem create (h : s.Sound) (ha : s.stage t ≠ .unborn ∧ s.stage t ≠ .exited) (g : Stage) :
    Effect t s ((s.create t).move t g) := by
  obtain ⟨hstage, hshared⟩ := h.beyond s.size (Nat.le_refl _)
  refine set h ha g (Nat.le_succ _) (Nat.lt_succ_self _) (fun p _ hm => ?_) (fun _ => ?_)
    (fun hnt => absurd (hnt ▸ hstage) ha.1) nofun nofun
  · rw [hshared] at hm
    cases hm
  · rw [hshared]
    exact ⟨rfl, .inl rfl⟩

end Effect

/-! ## The list of tasks -/

/-- What a step of thread `t` does to the list of tasks and to those taken off it. -/
structure Books (t : Nat) (s s' : Threads) : Prop where
  unjoined : ∀ n ∈ s.unjoined,
    s.stage n = .exited ∨ n ∈ s'.unjoined ∨ n ∈ (s'.stage 0).pending
  pending : ∀ n ∈ (s.stage 0).pending, s.stage n = .exited ∨ n ∈ (s'.stage 0).pending
  spawning : ∀ n phase, s.stage t = .spawning n phase →
    n ∈ s'.unjoined ∨ ∃ phase', s'.stage t = .spawning n phase'
  created : s'.size = s.size ∨ s'.size = s.size + 1 ∧ s'.stage t = .spawning s.size .start
  listed : ∀ n, n ∈ s'.unjoined ∨ n ∈ (s'.stage 0).pending → 0 < n ∧ n < s'.size

/-- Thread `t` makes a step that others can rely on. -/
def Goes (s : Threads) (t : Nat) (s' : Threads) : Prop :=
  Effect t s s' ∧ s'.Sound

theorem Sound.of_effect {s s' : Threads} {t : Nat} (h : s.Sound) (he : Effect t s s')
    (hb : Books t s s') {g : Stage} (hg : s'.stage t = g) (hsuits : (s'.shared t).Suits g)
    (hrelies : s'.Relies t g) (hfault : ∀ n, s'.fault ≠ some (.noOutcome n)) : s.Goes t s' := by
  subst hg
  -- a task that was added is the one that the thread is about to start
  have hnew : ∀ n, n < s'.size → n < s.size ∨ s'.stage t = .spawning n .start := by
    intro n hn
    rcases hb.created with hsize | ⟨hsize, hstage⟩
    · exact .inl (hsize ▸ hn)
    · rcases Nat.lt_or_ge n s.size with hlt | hge
      · exact .inl hlt
      · obtain rfl : n = s.size := by omega
        exact .inr hstage
  refine ⟨he, ?_, ?_, ?_, he.handle, he.beyond, hb.listed, ?_, hfault⟩
  · intro n
    by_cases hn : n = t
    · exact hn ▸ hsuits
    · exact he.suits h hn
  · intro p
    by_cases hp : p = t
    · exact hp ▸ hrelies
    · rcases he.stage p hp with hstage | ⟨-, -, hstage⟩
      · rw [hstage]
        exact he.relies h hp (h.relies p)
      · rw [hstage]
        trivial
  · intro n hpos hn hlock
    rcases hnew n hn with hlt | hstart
    · rcases he.unlocked n hlock with ⟨hold, hhandle⟩ | htrue | hx
      · exact (h.unlocked n hpos hlt hold).imp (hhandle.trans ·) fun hx => (he.exited hx).1
      · exact .inl htrue
      · exact .inr (he.exited hx).1
    · rw [hstart] at hrelies
      rw [hrelies.2.2.1] at hlock
      cases hlock
  · intro n hpos hn
    rcases hnew n hn with hlt | hstart
    · rcases h.tracked n hpos hlt with hx | hmem | hmem | ⟨p, phase, hp⟩
      · exact .inl (he.exited hx).1
      · rcases hb.unjoined n hmem with hx | hmem | hmem
        · exact .inl (he.exited hx).1
        · exact .inr (.inl hmem)
        · exact .inr (.inr (.inl hmem))
      · rcases hb.pending n hmem with hx | hmem
        · exact .inl (he.exited hx).1
        · exact .inr (.inr (.inl hmem))
      · by_cases hpt : p = t
        · subst hpt
          rcases hb.spawning n phase hp with hmem | ⟨phase', hp'⟩
          · exact .inr (.inl hmem)
          · exact .inr (.inr (.inr ⟨p, phase', hp'⟩))
        · rcases he.stage p hpt with hstage | ⟨hu, -⟩
          · exact .inr (.inr (.inr ⟨p, phase, hstage.trans hp⟩))
          · rw [hp] at hu
            cases hu
    · exact .inr (.inr (.inr ⟨t, .start, hstart⟩))

/-- A step that leaves the list alone. -/
theorem Books.kept {s s' : Threads} {t : Nat} (h : s.Sound)
    (hspawn : ∀ n phase, s.stage t = .spawning n phase → ∃ phase', s'.stage t = .spawning n phase')
    (hunjoined : s'.unjoined = s.unjoined) (hsize : s'.size = s.size)
    (hpending : (s'.stage 0).pending = (s.stage 0).pending) : Books t s s' where
  unjoined n hmem := .inr (.inl (hunjoined ▸ hmem))
  pending n hmem := .inr (hpending ▸ hmem)
  spawning n phase ht := .inr (hspawn n phase ht)
  created := .inl hsize
  listed n hmem := by
    rw [hunjoined, hpending] at hmem
    rw [hsize]
    exact h.listed n hmem

theorem Books.same {s s' : Threads} {t : Nat} (h : s.Sound)
    (hn : ∀ n phase, s.stage t ≠ .spawning n phase) (hunjoined : s'.unjoined = s.unjoined)
    (hsize : s'.size = s.size) (hpending : (s'.stage 0).pending = (s.stage 0).pending) :
    Books t s s' :=
  .kept h (fun n phase ht => absurd ht (hn n phase)) hunjoined hsize hpending

/-- The main thread is done with some of the tasks that it took off the list. -/
theorem Books.settle {s : Threads} {g : Stage} (h : s.Sound)
    (hn : ∀ n phase, s.stage 0 ≠ .spawning n phase)
    (hdone : ∀ n ∈ (s.stage 0).pending, s.stage n = .exited ∨ n ∈ g.pending)
    (hleft : ∀ n ∈ g.pending, n ∈ (s.stage 0).pending) : Books 0 s (s.move 0 g) where
  unjoined n hmem := .inr (.inl hmem)
  pending n hmem := by
    rw [stage_move_self]
    exact hdone n hmem
  spawning n phase ht := absurd ht (hn n phase)
  created := .inl rfl
  listed n hmem := by
    rw [stage_move_self] at hmem
    exact h.listed n (hmem.imp id (hleft n))

theorem pending_move {s : Threads} {t : Nat} {g : Stage} (hg : g.pending = (s.stage t).pending) :
    ((s.move t g).stage 0).pending = (s.stage 0).pending := by
  by_cases ht : t = 0
  · subst ht
    rw [stage_move_self, hg]
  · rw [stage_move_ne (Ne.symm ht)]

namespace Sound

variable {s s' : Threads} {t n : Nat}

/-- If the main thread finds the list empty when it holds no task back, there is none that goes on:
whoever starts one would itself be unknown to the main thread, and was started earlier. -/
theorem all_exited (h : s.Sound) (hlist : s.unjoined = []) (hpending : (s.stage 0).pending = [])
    (hmain : ∀ n phase, s.stage 0 ≠ .spawning n phase) (n : Nat) (hpos : 0 < n)
    (hlt : n < s.size) : s.stage n = .exited := by
  induction n using Nat.strongRecOn with
  | ind n ih =>
    rcases h.tracked n hpos hlt with hx | hmem | hmem | ⟨p, phase, hp⟩
    · exact hx
    · rw [hlist] at hmem
      cases hmem
    · rw [hpending] at hmem
      cases hmem
    · have hrelies := h.relies p
      rw [hp] at hrelies
      have hp0 : 0 < p := by
        refine Nat.pos_of_ne_zero ?_
        rintro rfl
        exact hmain n phase hp
      have hx := ih p hrelies.1 hp0 (Nat.lt_trans hrelies.1 hlt)
      rw [hp] at hx
      cases hx

/-- A thread that only goes on to another stage. -/
theorem move (h : s.Sound) {g g' : Stage} (ht : s.stage t = g) (ha : g ≠ .unborn ∧ g ≠ .exited)
    (hn : ∀ n phase, g ≠ .spawning n phase) (hpending : g'.pending = g.pending)
    (hsuits : (s.shared t).Suits g → (s.shared t).Suits g')
    (hrelies : Effect t s (s.move t g') → (s.move t g').Relies t g') : s.Goes t (s.move t g') := by
  subst ht
  have he := Effect.move h ha g'
  exact h.of_effect he (.same h hn rfl rfl (pending_move hpending)) (stage_move_self ..)
    (hsuits (h.suits t)) (hrelies he) h.fault

/-- A thread that changes what it shows of its own task, and goes on to a stage at which it relies
on nothing. -/
theorem tell (h : s.Sound) {g g' : Stage} {f : Shared → Shared} (ht : s.stage t = g)
    (hn : ∀ n phase, g ≠ .spawning n phase) (hpending : g'.pending = g.pending)
    (he : (s.shared t).Suits g → Effect t s ((s.change t f).move t g'))
    (hsuits : (s.shared t).Suits g → (f (s.shared t)).Suits g')
    (hrelies : ((s.change t f).move t g').Relies t g') : s.Goes t ((s.change t f).move t g') := by
  subst ht
  refine h.of_effect (he (h.suits t)) (.same h hn rfl rfl (pending_move hpending))
    (stage_move_self ..) ?_ hrelies h.fault
  rw [shared_move, shared_change_self]
  exact hsuits (h.suits t)

/-- The main thread is done with a task that has exited. -/
theorem settle (h : s.Sound) {g : Stage} {pending : List Nat} {waited : Nat}
    (ht : s.stage 0 = g) (ha : g ≠ .unborn ∧ g ≠ .exited)
    (hn : ∀ n phase, g ≠ .spawning n phase) (hpending : g.pending = n :: pending)
    (hsuits : (s.shared 0).Suits g → (s.shared 0).Suits (.examining pending waited))
    (hx : s.stage n = .exited) : s.Goes 0 (s.move 0 (.examining pending waited)) := by
  subst ht
  refine h.of_effect (.move h ha _) (.settle h hn ?_ ?_) (stage_move_self ..)
    (hsuits (h.suits 0)) rfl h.fault
  · rw [hpending]
    intro m hm
    rcases List.mem_cons.mp hm with rfl | hm
    · exact .inl hx
    · exact .inr hm
  · rw [hpending]
    exact fun m hm => List.mem_cons_of_mem n hm

end Sound

/-! ## Waiting for a task -/

/-- The stages at which thread `t` waits for task `n`. -/
structure Waiter (s : Threads) (t n : Nat) (again : Waiting → Stage) : Prop where
  pos : 0 < n
  lt_size : n < s.size
  awake : ∀ phase, again phase ≠ .unborn ∧ again phase ≠ .exited
  starts : ∀ phase n phase', again phase ≠ .spawning n phase'
  pending : ∀ phase phase', (again phase).pending = (again phase').pending
  suits : ∀ (x : Shared) (phase : Waiting), x.Suits (again phase) ↔
    x.state = .running ∧ x.ending = none
  relies : ∀ (s' : Threads) (phase : Waiting), s'.size = s.size → s'.Waits t n phase →
    s'.Relies t (again phase)

namespace Waiter

variable {s s' : Threads} {t n : Nat} {again : Waiting → Stage} {phase next : Waiting}

/-- The thread goes on to another phase. -/
theorem move (w : Waiter s t n again) (h : s.Sound) (ht : s.stage t = again phase)
    (hwaits : Effect t s (s.move t (again next)) → (s.move t (again next)).Waits t n next) :
    s.Goes t (s.move t (again next)) :=
  h.move ht (w.awake phase) (w.starts phase) (w.pending next phase)
    (fun hx => (w.suits _ next).mpr ((w.suits _ phase).mp hx))
    fun he => w.relies _ next rfl (hwaits he)

/-- The thread changes the task that it waits for, and goes on to another phase. -/
theorem change (w : Waiter s t n again) (h : s.Sound) (ht : s.stage t = again phase)
    {f : Shared → Shared} (he : Effect t s ((s.change n f).move t (again next)))
    (hwaits : ((s.change n f).move t (again next)).Waits t n next)
    (hself : t = n → (f (s.shared n)).state = (s.shared n).state ∧
      (f (s.shared n)).ending = (s.shared n).ending) :
    s.Goes t ((s.change n f).move t (again next)) := by
  have hrunning := (w.suits _ phase).mp (ht ▸ h.suits t)
  have hn : ∀ n phase', s.stage t ≠ .spawning n phase' := ht ▸ w.starts phase
  have hpending : (again next).pending = (s.stage t).pending := ht ▸ w.pending next phase
  refine h.of_effect he (.same h hn rfl rfl (pending_move hpending)) (stage_move_self ..)
    ((w.suits _ next).mpr ?_) (w.relies _ next rfl hwaits) h.fault
  rw [shared_move]
  by_cases htn : t = n
  · subst htn
    obtain ⟨hstate, hending⟩ := hself rfl
    rw [shared_change_self, hstate, hending]
    exact hrunning
  · rw [shared_change_ne htn]
    exact hrunning

/-- A step in waiting for the task, up to the reading of its ending. -/
theorem step (w : Waiter s t n again) (h : s.Sound) {done : Option Ending → Stage}
    (ht : s.stage t = again phase) (hw : s.Waits t n phase) (hread : phase ≠ .read)
    (hs' : s.wait t n again done phase = some s') : s.Goes t s' := by
  have ha : s.stage t ≠ .unborn ∧ s.stage t ≠ .exited := ht ▸ w.awake phase
  have hshared : ∀ {f : Shared → Shared} {next : Waiting},
      ((s.change n f).move t (again next)).shared n = f (s.shared n) :=
    shared_change_self ..
  cases phase with
  | lock =>
    obtain ⟨hlock, ⟨⟩⟩ := Option.ite_none_right_eq_some.mp hs'
    have he : Effect t s ((s.change n fun x => { x with lock := some t }).move t (again .take)) :=
      .change h ha w.lt_size _ (.inr ⟨hlock, rfl⟩) rfl (.inl rfl) nofun (h.handle n)
    refine w.change h ht he ⟨?_, ?_⟩ fun _ => ⟨rfl, rfl⟩
    · rw [hshared]
    · rw [hshared]
      exact (h.unlocked n w.pos w.lt_size hlock).imp id fun hx => (he.exited hx).1
  | take =>
    obtain ⟨hlock, hor⟩ := hw
    rw [Threads.wait] at hs'
    split at hs'
    · rename_i hhandle
      cases hs'
      have hkept : (s.shared n).lock ≠ none := by
        rw [hlock]
        nofun
      refine w.change h ht (.change h ha w.lt_size _ (.inl hlock) rfl (.inl rfl)
        (fun hnone => absurd hnone hkept) nofun) ⟨?_, ?_, ?_⟩ fun _ => ⟨rfl, rfl⟩
      · rw [hshared]
        exact hlock
      · rw [hshared]
      · rw [hshared]
        exact h.handle n hhandle
    · rename_i hhandle
      cases hs'
      exact w.move h ht fun he => ⟨hlock, (he.exited (hor.resolve_left hhandle)).1⟩
  | exit =>
    obtain ⟨hlock, hhandle, hj⟩ := hw
    rw [Threads.wait] at hs'
    split at hs'
    · rename_i hx
      cases hs'
      exact w.move h ht fun he => ⟨hlock, hhandle, hj, (he.exited hx).1⟩
    · cases hs'
      exact ⟨.stop h ha _, { h with fault := nofun }⟩
    · cases hs'
  | mark =>
    obtain ⟨hlock, hhandle, hj, hx⟩ := hw
    cases hs'
    have hfinished : (s.shared n).state = .finished := by
      have hsuit := h.suits n
      rw [hx] at hsuit
      exact hsuit.1.resolve_right hj
    have he : Effect t s
        ((s.change n fun x => { x with state := .joined }).move t (again .unlock)) := by
      refine .change h ha w.lt_size _ (.inl hlock) rfl (.inr ⟨hx, hlock, hfinished, rfl⟩)
        (fun _ => .inr hx) fun htrue => ?_
      rw [hhandle] at htrue
      cases htrue
    refine w.change h ht he ⟨?_, (he.exited hx).1⟩ fun htn => ?_
    · rw [hshared]
      exact hlock
    · subst htn
      exact absurd hx ha.2
  | unlock =>
    obtain ⟨hlock, hx⟩ := hw
    cases hs'
    have he : Effect t s ((s.change n fun x => { x with lock := none }).move t (again .read)) :=
      .change h ha w.lt_size _ (.inl hlock) rfl (.inl rfl) (fun _ => .inr hx) (h.handle n)
    exact w.change h ht he (he.exited hx).1 fun _ => ⟨rfl, rfl⟩
  | read => exact absurd rfl hread

end Waiter

namespace Sound

variable {s s' : Threads} {t n : Nat}

theorem join (h : s.Sound) {phase : Waiting} (ht : s.stage t = .joining n phase)
    (hs' : s.wait t n (.joining n) (.untracking n) phase = some s') : s.Goes t s' := by
  have hrelies := h.relies t
  rw [ht] at hrelies
  obtain ⟨hpos, hlt, hw⟩ := hrelies
  by_cases hread : phase = .read
  · subst hread
    cases hs'
    exact h.move ht ⟨nofun, nofun⟩ nofun rfl id fun he => ⟨(he.exited hw).1, rfl⟩
  · have w : Waiter s t n (.joining n) :=
      ⟨hpos, hlt, fun _ => ⟨nofun, nofun⟩, fun _ _ _ => nofun, fun _ _ => rfl, fun _ _ => Iff.rfl,
        fun _ _ hsize hw => ⟨hpos, hsize ▸ hlt, hw⟩⟩
    exact w.step h ht hw hread hs'

theorem await (h : s.Sound) {phase : Waiting} {pending : List Nat} {waited : Nat}
    (ht : s.stage t = .awaiting n phase pending waited)
    (hs' : s.wait t n (.awaiting n · pending waited)
      (fun _ => .examining pending (waited + 1)) phase = some s') : s.Goes t s' := by
  have hrelies := h.relies t
  rw [ht] at hrelies
  obtain ⟨rfl, hw⟩ := hrelies
  by_cases hread : phase = .read
  · subst hread
    cases hs'
    exact h.settle ht ⟨nofun, nofun⟩ nofun rfl id hw
  · obtain ⟨hpos, hlt⟩ : 0 < n ∧ n < s.size := by
      refine h.listed n (.inr ?_)
      rw [ht]
      exact List.mem_cons_self
    have w : Waiter s 0 n (.awaiting n · pending waited) :=
      ⟨hpos, hlt, fun _ => ⟨nofun, nofun⟩, fun _ _ _ => nofun, fun _ _ => rfl, fun _ _ => Iff.rfl,
        fun _ _ _ hw => ⟨rfl, hw⟩⟩
    exact w.step h ht hw hread hs'

/-! ## Starting a task -/

/-- The thread changes the new task, and goes on to another phase. -/
theorem spawn_change (h : s.Sound) {phase next : Spawning} (ht : s.stage t = .spawning n phase)
    {f : Shared → Shared} (he : Effect t s ((s.change n f).move t (.spawning n next)))
    (hspawns : ((s.change n f).move t (.spawning n next)).Spawns t n next) :
    s.Goes t ((s.change n f).move t (.spawning n next)) := by
  have hrunning := h.suits t
  have hrelies := h.relies t
  rw [ht] at hrunning hrelies
  obtain ⟨hlt, hsize, -⟩ := hrelies
  have hpending : (Stage.spawning n next).pending = (s.stage t).pending := by
    rw [ht]
    rfl
  have hgoes : ∀ m phase, s.stage t = .spawning m phase →
      ∃ phase', ((s.change n f).move t (.spawning n next)).stage t = .spawning m phase' := by
    intro m phase hm
    rw [ht] at hm
    cases hm
    exact ⟨next, stage_move_self ..⟩
  refine h.of_effect he (.kept h hgoes rfl rfl (pending_move hpending)) (stage_move_self ..) ?_
    ⟨hlt, hsize, hspawns⟩ h.fault
  rw [shared_move, shared_change_ne (Nat.ne_of_lt hlt)]
  exact hrunning

/-- The thread of the new task is started. -/
theorem spawn_start (h : s.Sound) (ht : s.stage t = .spawning n .start) :
    s.Goes t ((s.move n .started).move t (.spawning n .store)) := by
  have hrunning := h.suits t
  have hrelies := h.relies t
  rw [ht] at hrunning hrelies
  obtain ⟨hlt, hsize, hlock, hj, hu⟩ := hrelies
  have ha : s.stage t ≠ .unborn ∧ s.stage t ≠ .exited := by
    rw [ht]
    exact ⟨nofun, nofun⟩
  have hmain : ((s.move n .started).move t (.spawning n .store)).stage 0 =
      (s.move t (.spawning n .store)).stage 0 := by
    by_cases ht0 : t = 0
    · subst ht0
      rw [stage_move_self, stage_move_self]
    · have hn0 : 0 ≠ n := Nat.ne_of_lt (Nat.lt_of_le_of_lt (Nat.zero_le t) hlt)
      rw [stage_move_ne (Ne.symm ht0), stage_move_ne (Ne.symm ht0), stage_move_ne hn0]
  have hpending : (Stage.spawning n .store).pending = (s.stage t).pending := by
    rw [ht]
    rfl
  refine h.of_effect (.start h ha hsize hlock hu _) (.kept h ?_ rfl rfl
    ((congrArg Stage.pending hmain).trans (pending_move hpending))) (stage_move_self ..) hrunning
    ⟨hlt, hsize, hlock, hj⟩ h.fault
  intro m phase hm
  rw [ht] at hm
  cases hm
  exact ⟨.store, stage_move_self ..⟩

/-- The new task is put on the list. -/
theorem spawn_track (h : s.Sound) (ht : s.stage t = .spawning n .track) :
    s.Goes t ({ s with unjoined := s.unjoined ++ [n] }.move t .working) := by
  have hrunning := h.suits t
  have hrelies := h.relies t
  rw [ht] at hrunning hrelies
  obtain ⟨hlt, hsize, -⟩ := hrelies
  have ha : s.stage t ≠ .unborn ∧ s.stage t ≠ .exited := by
    rw [ht]
    exact ⟨nofun, nofun⟩
  have hpend : ((s.move t .working).stage 0).pending = (s.stage 0).pending :=
    pending_move (by rw [ht]; rfl)
  refine h.of_effect ((Effect.move h ha .working).relist (s.unjoined ++ [n])) ?_
    (stage_move_self ..) hrunning trivial h.fault
  refine ⟨fun m hm => .inr (.inl (List.mem_append_left _ hm)), fun m hm => .inr (hpend ▸ hm),
    fun m phase hm => ?_, .inl rfl, fun m hm => ?_⟩
  · rw [ht] at hm
    cases hm
    exact .inl (List.mem_append_right _ (List.mem_singleton.mpr rfl))
  · change m ∈ s.unjoined ++ [n] ∨ m ∈ ((s.move t .working).stage 0).pending at hm
    rw [hpend, List.mem_append, List.mem_singleton] at hm
    rcases hm with (hm | rfl) | hm
    · exact h.listed m (.inl hm)
    · exact ⟨Nat.lt_of_le_of_lt (Nat.zero_le t) hlt, hsize⟩
    · exact h.listed m (.inr hm)

theorem spawn (h : s.Sound) {phase : Spawning} (ht : s.stage t = .spawning n phase) :
    s.Goes t (s.spawn t n phase) := by
  have hrelies := h.relies t
  have ha : s.stage t ≠ .unborn ∧ s.stage t ≠ .exited := by
    rw [ht]
    exact ⟨nofun, nofun⟩
  rw [ht] at hrelies
  obtain ⟨-, hsize, hs⟩ := hrelies
  cases phase with
  | start => exact h.spawn_start ht
  | store =>
    obtain ⟨hlock, hj⟩ := hs
    refine h.spawn_change ht (.change h ha hsize _ (.inl hlock) rfl (.inl rfl)
      (fun _ => .inl rfl) fun _ => hj) ⟨?_, ?_⟩
    · rw [shared_move, shared_change_self]
      exact hlock
    · rw [shared_move, shared_change_self]
  | unlock =>
    obtain ⟨hlock, hhandle⟩ := hs
    exact h.spawn_change ht (.change h ha hsize _ (.inl hlock) rfl (.inl rfl)
      (fun _ => .inl hhandle) (h.handle n)) trivial
  | track => exact h.spawn_track ht

/-- A new task, which the thread is about to start. -/
theorem create (h : s.Sound) (ht : s.stage t = .working) :
    s.Goes t ((s.create t).move t (.spawning s.size .start)) := by
  have hrunning := h.suits t
  rw [ht] at hrunning
  have ha : s.stage t ≠ .unborn ∧ s.stage t ≠ .exited := by
    rw [ht]
    exact ⟨nofun, nofun⟩
  have hpend : ((s.move t (.spawning s.size .start)).stage 0).pending = (s.stage 0).pending :=
    pending_move (by rw [ht]; rfl)
  have hlt : t < s.size := Nat.lt_of_not_le fun hle => ha.1 (h.beyond t hle).1
  have hstage : ((s.create t).move t (.spawning s.size .start)).stage t =
      .spawning s.size .start := stage_move_self ..
  obtain ⟨hu, -⟩ := h.beyond s.size (Nat.le_refl _)
  have hself : ((s.create t).move t (.spawning s.size .start)).shared s.size =
      { lock := some t } := Function.update_self ..
  refine h.of_effect (.create h ha _) ⟨fun m hm => .inr (.inl hm), fun m hm => .inr (hpend ▸ hm),
    fun m phase hm => ?_, .inr ⟨rfl, hstage⟩, fun m hm => ?_⟩ hstage ?_ ?_ h.fault
  · rw [ht] at hm
    cases hm
  · obtain ⟨hpos, hlt⟩ := h.listed m (hm.imp id fun hm => hpend ▸ hm)
    exact ⟨hpos, Nat.lt_succ_of_lt hlt⟩
  · show (Function.update s.shared s.size _ t).Suits _
    rw [Function.update_of_ne (Nat.ne_of_lt hlt)]
    exact hrunning
  · refine ⟨hlt, Nat.lt_succ_self _, ?_, ?_, ?_⟩
    · rw [hself]
    · rw [hself]
      nofun
    · exact (stage_move_ne (Nat.ne_of_gt hlt) _).trans hu

/-! ## The list -/

/-- A thread takes a task that it has joined off the list. It has found its ending. -/
theorem untrack (h : s.Sound) {seen : Option Ending} (ht : s.stage t = .untracking n seen) :
    seen.isSome ∧ s.Goes t ((s.untrack n).move t .working) := by
  have hrunning := h.suits t
  have hrelies := h.relies t
  rw [ht] at hrunning hrelies
  obtain ⟨hx, rfl⟩ := hrelies
  have hsuits := h.suits n
  rw [hx] at hsuits
  have ha : s.stage t ≠ .unborn ∧ s.stage t ≠ .exited := by
    rw [ht]
    exact ⟨nofun, nofun⟩
  have hpend : ((s.move t .working).stage 0).pending = (s.stage 0).pending :=
    pending_move (by rw [ht]; rfl)
  refine ⟨hsuits.2, h.of_effect ((Effect.move h ha .working).relist _) ?_ (stage_move_self ..)
    hrunning trivial h.fault⟩
  refine ⟨fun m hm => ?_, fun m hm => .inr (hpend ▸ hm), fun m phase hm => ?_, .inl rfl,
    fun m hm => ?_⟩
  · by_cases hmn : m = n
    · exact .inl (hmn ▸ hx)
    · exact .inr (.inl (List.mem_filter.mpr ⟨hm, by simpa using hmn⟩))
  · rw [ht] at hm
    cases hm
  · refine h.listed m (hm.imp (fun hm => (List.mem_filter.mp hm).1) fun hm => ?_)
    change m ∈ ((s.move t .working).stage 0).pending at hm
    rwa [hpend] at hm

/-- The main thread takes the whole list. -/
theorem collect (h : s.Sound) {waited : Nat} (ht : s.stage 0 = .collecting waited) :
    s.Goes 0 ({ s with unjoined := [] }.move 0 (.examining s.unjoined waited)) := by
  have hrunning := h.suits 0
  rw [ht] at hrunning
  have ha : s.stage 0 ≠ .unborn ∧ s.stage 0 ≠ .exited := by
    rw [ht]
    exact ⟨nofun, nofun⟩
  have hstage : ((s.move 0 (.examining s.unjoined waited)).stage 0).pending = s.unjoined := by
    rw [stage_move_self]
    rfl
  refine h.of_effect ((Effect.move h ha (.examining s.unjoined waited)).relist []) ?_
    (stage_move_self ..) hrunning rfl h.fault
  refine ⟨fun n hn => .inr (.inr ?_), fun n hn => ?_, fun n phase hn => ?_, .inl rfl,
    fun n hn => h.listed n (.inl ?_)⟩
  · exact hstage ▸ hn
  · rw [ht] at hn
    cases hn
  · rw [ht] at hn
    cases hn
  · rcases hn with hn | hn
    · cases hn
    · exact hstage ▸ hn

/-- The main thread finds the list empty. -/
theorem depart (h : s.Sound) {waited : Nat} (ht : s.stage 0 = .collecting waited)
    (hlist : s.unjoined = []) : s.Goes 0 (s.move 0 (.departing waited)) := by
  have hpending : (s.stage 0).pending = [] := by
    rw [ht]
    rfl
  have hmain : ∀ n phase, s.stage 0 ≠ .spawning n phase := by
    rw [ht]
    nofun
  refine h.move ht ⟨nofun, nofun⟩ nofun rfl id fun he => ⟨rfl, hlist, fun n hpos hlt => ?_⟩
  exact (he.exited (h.all_exited hlist hpending hmain n hpos hlt)).1

/-- The main thread goes on to the next task that it has taken off the list. -/
theorem examine (h : s.Sound) {pending : List Nat} {waited : Nat}
    (ht : s.stage 0 = .examining (n :: pending) waited) :
    s.Goes 0 (if (s.shared n).state = .joined then s.move 0 (.examining pending waited)
      else s.move 0 (.awaiting n .lock pending waited)) := by
  split
  · rename_i hjoined
    have hx : s.stage n = .exited := by
      have hsuits := h.suits n
      cases hn : s.stage n <;> simp_all [Shared.Suits]
    exact h.settle ht ⟨nofun, nofun⟩ nofun rfl id hx
  · exact h.move ht ⟨nofun, nofun⟩ nofun rfl id fun _ => ⟨rfl, trivial⟩

/-! ## Every step and every run -/

theorem choose (h : s.Sound) (ht : s.stage t = .working) {c : Choice}
    (hs' : s.choose t c = some s') : s.Goes t s' := by
  cases c with
  | go => cases hs'
  | spawn =>
    cases hs'
    exact h.create ht
  | join n =>
    obtain ⟨⟨-, hpos, hlt⟩, ⟨⟩⟩ := Option.ite_none_right_eq_some.mp hs'
    exact h.move ht ⟨nofun, nofun⟩ nofun rfl id fun _ => ⟨hpos, hlt, trivial⟩
  | finish e =>
    obtain ⟨-, ⟨⟩⟩ := Option.ite_none_right_eq_some.mp hs'
    exact h.move ht ⟨nofun, nofun⟩ nofun rfl id fun _ => trivial
  | crash =>
    obtain ⟨-, ⟨⟩⟩ := Option.ite_none_right_eq_some.mp hs'
    exact h.move ht ⟨nofun, nofun⟩ nofun rfl id fun _ => trivial
  | shutdown =>
    obtain ⟨rfl, ⟨⟩⟩ := Option.ite_none_right_eq_some.mp hs'
    exact h.move ht ⟨nofun, nofun⟩ nofun rfl id fun _ => rfl

theorem proceed (h : s.Sound) (hs' : s.proceed t = some s') : s.Goes t s' := by
  have hrelies := h.relies t
  have hawake : ∀ {g}, s.stage t = g → g ≠ .unborn → g ≠ .exited →
      s.stage t ≠ .unborn ∧ s.stage t ≠ .exited := by
    rintro g rfl hu hx
    exact ⟨hu, hx⟩
  unfold Threads.proceed at hs'
  cases ht : s.stage t with
  | unborn | working | exited | dead =>
    rw [ht] at hs'
    cases hs'
  | started =>
    rw [ht] at hs'
    cases hs'
    exact h.tell ht nofun rfl
      (fun hx => .tell h (hawake ht nofun nofun) _ rfl rfl (.inr (.inl ⟨hx.1, rfl⟩)))
      (fun hx => ⟨rfl, hx.2⟩) trivial
  | spawning n phase =>
    rw [ht] at hs'
    cases hs'
    exact h.spawn ht
  | joining n phase =>
    rw [ht] at hs'
    exact h.join ht hs'
  | untracking n seen =>
    obtain ⟨hsome, hgoes⟩ := h.untrack ht
    obtain ⟨e, rfl⟩ := Option.isSome_iff_exists.mp hsome
    rw [ht] at hs'
    cases hs'
    exact hgoes
  | collecting waited =>
    rw [ht] at hs' hrelies
    obtain rfl : t = 0 := hrelies
    cases hlist : s.unjoined with
    | nil =>
      rw [hlist] at hs'
      cases hs'
      exact h.depart ht hlist
    | cons m rest =>
      rw [hlist] at hs'
      cases hs'
      exact hlist ▸ h.collect ht
  | examining pending waited =>
    rw [ht] at hs' hrelies
    obtain rfl : t = 0 := hrelies
    cases pending with
    | nil =>
      cases hs'
      exact h.move ht ⟨nofun, nofun⟩ nofun rfl id fun _ => rfl
    | cons n pending =>
      dsimp only at hs'
      rw [← apply_ite some] at hs'
      cases hs'
      exact h.examine ht
  | awaiting n phase pending waited =>
    rw [ht] at hs'
    exact h.await ht hs'
  | departing waited =>
    rw [ht] at hs'
    cases hs'
    exact h.move ht ⟨nofun, nofun⟩ nofun rfl id fun _ => trivial
  | closing e =>
    rw [ht] at hs'
    cases hs'
    exact h.move ht ⟨nofun, nofun⟩ nofun rfl id fun _ => trivial
  | keeping e =>
    rw [ht] at hs'
    cases hs'
    exact h.tell ht nofun rfl (fun _ => .tell h (hawake ht nofun nofun) _ rfl rfl (.inl rfl))
      (fun hx => ⟨hx.1, rfl⟩) trivial
  | finishing =>
    rw [ht] at hs'
    cases hs'
    exact h.tell ht nofun rfl
      (fun hx => .tell h (hawake ht nofun nofun) _ rfl rfl (.inr (.inr ⟨hx.1, rfl⟩)))
      (fun hx => ⟨rfl, hx.2⟩) trivial
  | leaving =>
    rw [ht] at hs'
    cases hs'
    exact h.move ht ⟨nofun, nofun⟩ nofun rfl (fun hx => ⟨.inl hx.1, hx.2⟩) fun _ => trivial

end Sound

/-- A step is a choice of the program, or the only way to go on. -/
theorem step_cases {s s' : Threads} {t : Nat} {c : Choice} (hs' : s.step t c = some s') :
    s.stage t = .working ∧ s.choose t c = some s' ∨ c = .go ∧ s.proceed t = some s' := by
  unfold step at hs'
  split at hs'
  · cases hs'
  · next ht => exact .inl ⟨ht, hs'⟩
  · exact .inr ⟨rfl, hs'⟩
  · cases hs'

theorem Sound.step {s s' : Threads} {t : Nat} {c : Choice} (h : s.Sound)
    (hs' : s.step t c = some s') : s.Goes t s' := by
  rcases step_cases hs' with ⟨ht, hs'⟩ | ⟨-, hs'⟩
  · exact h.choose ht hs'
  · exact h.proceed hs'

theorem boot_sound : boot.Sound where
  suits n := by
    by_cases hn : n = 0
    · subst hn
      exact ⟨rfl, rfl⟩
    · simp [boot, hn, Shared.Suits]
  relies p := by
    by_cases hp : p = 0 <;> simp [boot, hp, Relies]
  unlocked n hpos hn := by
    have : n < 1 := hn
    omega
  handle n hn := by
    by_cases hz : n = 0 <;> simp [boot, hz] at hn
  beyond n hn := by
    have hz : n ≠ 0 := Nat.ne_of_gt hn
    simp [boot, hz]
  listed n hn := by
    simp [boot, Stage.pending] at hn
  tracked n hpos hn := by
    have : n < 1 := hn
    omega
  fault := nofun

theorem run_append (s : Threads) (a b : List (Nat × Choice)) :
    s.run (a ++ b) = (s.run a).bind (·.run b) := by
  induction a generalizing s with
  | nil => rfl
  | cons x a ih =>
    simp only [List.cons_append, run, Option.bind_assoc, ih]

theorem Sound.run {s s' : Threads} {schedule : List (Nat × Choice)} (h : s.Sound)
    (hs' : s.run schedule = some s') : s'.Sound := by
  induction schedule generalizing s with
  | nil =>
    cases hs'
    exact h
  | cons x rest ih =>
    obtain ⟨s₁, hstep, hrest⟩ := Option.bind_eq_some_iff.mp hs'
    exact ih (h.step hstep).2 hrest

end Threads
end ObjectMachine
