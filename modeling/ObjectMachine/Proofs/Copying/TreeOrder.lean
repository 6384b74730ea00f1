import ObjectMachine.Proofs.Copying.Orders

/-!
# ObjectMachine.Proofs.Copying.TreeOrder

Comparison of trees, beside comparison of the values that have them.

A comparison of values takes an object for equal to itself without looking inside; trees have no
identity. So values and trees compare alike only where this makes no difference: where what the two
values share has a tree that equals itself.

* `Packed.order` — the order of two trees.
* `View.Agree` — what two parts of a heap share has trees that equal themselves.
* `Heap.order_eq_tree` — values of such parts compare as their trees do.
* `Heap.order_of_tree` — if no key equals two keys of one hash, values with equal trees are equal.
* `View.order_refl` — a tree of plain data without equal keys equals itself.
-/

namespace ObjectMachine

namespace Packed

def number? : Packed → Option Number
  | .int i => some (.int i)
  | .float x => some (.float x)
  | _ => none

/-- The order of two numbers; none if one of the trees is no number. -/
def orderNumbers (p q : Packed) : Option Ordering :=
  match p.number?, q.number? with
  | some x, some y => x.compare y
  | _, _ => none

/-- What the comparison of the left tree's kind says; `c` orders what the two contain. -/
def orderLeft (c : Packed → Packed → Option Ordering) : Packed → Packed → Option Ordering
  | .nil, .nil => some .eq
  | .bool x, .bool y => some (compareBools x y)
  | .str x, .str y => some (compareBytes x.data.toList y.data.toList)
  | .array ps, .array qs => orderItems c ps qs
  | .hash es, .hash fs => orderEntries c es fs
  | .task s, .task t => if s = t then some .eq else none
  | p, q => p.orderNumbers q

/-- The order of two trees, `levels` levels deep. -/
def order : Nat → Packed → Packed → Option Ordering
  | 0, _, _ => none
  | levels + 1, p, q => Heap.bothWays (orderLeft (order levels) p q) (orderLeft (order levels) q p)

/-- Trees that are not comparable are so either way round. -/
theorem order_none {m : Nat} {p q : Packed} (h : order m p q = none) : order m q p = none := by
  cases m with
  | zero => rfl
  | succ m =>
    simp only [order, Heap.bothWays] at h ⊢
    cases hl : orderLeft (order m) p q with
    | some o => simp [hl] at h
    | none =>
      cases hr : orderLeft (order m) q p with
      | some o => simp [hl, hr] at h
      | none => rfl

end Packed

/-! ### Equal containers -/

section Containers

variable {α β : Type} {c : α → α → Option Ordering}

theorem orderItems_eq_some_eq {xs ys : List α} :
    orderItems c xs ys = some .eq ↔ List.Forall₂ (fun x y => c x y = some .eq) xs ys := by
  induction xs generalizing ys with
  | nil => cases ys <;> simp [orderItems]
  | cons x xs ih =>
    cases ys with
    | nil => simp [orderItems]
    | cons y ys =>
      rw [List.forall₂_cons, ← ih, orderItems]
      cases hc : c x y with
      | none => simp
      | some o => cases o <;> simp

/-- Lists that are not comparable one way round are not equal the other way round. -/
theorem orderItems_none (hsymm : ∀ x y, c x y = none → c y x = none) {xs ys : List α}
    (h : orderItems c xs ys = none) : orderItems c ys xs ≠ some .eq := by
  induction xs generalizing ys with
  | nil => cases ys <;> simp [orderItems] at h
  | cons x xs ih =>
    cases ys with
    | nil => simp [orderItems] at h
    | cons y ys =>
      intro heq
      rw [orderItems_eq_some_eq, List.forall₂_cons] at heq
      cases hc : c x y with
      | none =>
        rw [hsymm x y hc] at heq
        cases heq.1
      | some o =>
        cases o with
        | eq => exact ih (by simpa [orderItems, hc] using h) (orderItems_eq_some_eq.mpr heq.2)
        | lt => simp [orderItems, hc] at h
        | gt => simp [orderItems, hc] at h

theorem partner?_eq_some {key w : α} {fs : List (α × α)} (h : partner? c key fs = some w) :
    ∃ (i : Nat) (k : α), fs[i]? = some (k, w) ∧ c k key = some .eq := by
  induction fs with
  | nil => simp [partner?] at h
  | cons f fs ih =>
    obtain ⟨k, v⟩ := f
    by_cases hk : c k key = some .eq
    · rw [partner?, if_pos hk] at h
      cases h
      exact ⟨0, k, rfl, hk⟩
    · rw [partner?, if_neg hk] at h
      obtain ⟨i, l, hl, heq⟩ := ih h
      exact ⟨i + 1, l, by simpa using hl, heq⟩

/-- An entry with the only equal key is the partner. -/
theorem partner?_of_unique {key k w : α} {fs : List (α × α)} {i : Nat} (hi : fs[i]? = some (k, w))
    (hk : c k key = some .eq)
    (hunique : ∀ j l v, fs[j]? = some (l, v) → c l key = some .eq → j = i) :
    partner? c key fs = some w := by
  induction fs generalizing i with
  | nil => simp at hi
  | cons f fs ih =>
    obtain ⟨l, v⟩ := f
    by_cases hl : c l key = some .eq
    · have hzero : 0 = i := hunique 0 l v rfl hl
      subst hzero
      simp only [List.getElem?_cons_zero, Option.some.injEq, Prod.mk.injEq] at hi
      rw [partner?, if_pos hl, hi.2]
    · cases i with
      | zero =>
        simp only [List.getElem?_cons_zero, Option.some.injEq, Prod.mk.injEq] at hi
        exact absurd (hi.1 ▸ hk) hl
      | succ i =>
        rw [partner?, if_neg hl]
        apply ih (by simpa using hi)
        intro j l' v' hj hl'
        have := hunique (j + 1) l' v' (by simpa using hj) hl'
        omega

theorem partnered_iff {es fs : List (α × α)} :
    partnered c fs es = true ↔
      ∀ e ∈ es, ∃ w, partner? c e.1 fs = some w ∧ c e.2 w = some .eq := by
  induction es with
  | nil => simp [partnered]
  | cons e es ih =>
    obtain ⟨k, v⟩ := e
    rw [List.forall_mem_cons, ← ih, partnered]
    cases partner? c k fs with
    | none => simp
    | some w => simp

/-- Hashes are equal or not comparable. -/
theorem orderEntries_none {es fs : List (α × α)} (h : orderEntries c es fs ≠ some .eq) :
    orderEntries c es fs = none := by
  by_cases hboth : es.length = fs.length ∧ partnered c fs es = true
  · exact absurd (if_pos hboth) h
  · exact if_neg hboth

end Containers

/-! ### Values and trees that compare alike -/

theorem orderLeft_congr {V W : View} {S T : Ref → Packed → Prop} {oa ob : Payload} {p q : Packed}
    {c : Ref → Ref → Option Ordering} {d : Packed → Packed → Option Ordering}
    (hp : V.Contents S oa p) (hq : W.Contents T ob q) (hnil : ¬ (oa = .nil ∧ ob = .nil))
    (hcd : ∀ x s y t, S x s → T y t → c x y = d s t)
    (hdc : ∀ x s y t, S x s → T y t → c y x = d t s) :
    oa.orderLeft c ob = p.orderLeft d q := by
  cases hp with
  | nil =>
    cases hq with
    | nil => exact absurd ⟨rfl, rfl⟩ hnil
    | _ => rfl
  | array hps =>
    cases hq with
    | array hqs => exact orderItems_congr hps hqs hcd
    | _ => rfl
  | hash hps =>
    cases hq with
    | hash hqs => exact orderEntries_congr hps hqs hcd hdc
    | _ => rfl
  | _ => cases hq <;> rfl

/-- What the two views share has trees, of at most `m` levels, that equal themselves. -/
def View.Agree (V W : View) (m : Nat) : Prop :=
  ∀ k ≤ m, ∀ r p q, V.Tree k r p → W.Tree k r q →
    Packed.order k p q = some .eq ∧ Packed.order k q p = some .eq

theorem View.Agree.mono {V W : View} {m n : Nat} (h : V.Agree W n) (hmn : m ≤ n) : V.Agree W m :=
  fun k hk => h k (Nat.le_trans hk hmn)

theorem View.Agree.symm {V W : View} {m : Nat} (h : V.Agree W m) : W.Agree V m :=
  fun k hk r p q hp hq => (h k hk r q p hq hp).symm

namespace Heap

variable {h : Heap}

/-- Values compare as their trees do if the views in which they have them agree. -/
theorem order_eq_tree (hk : h.ByKind) : ∀ {m : Nat} {V W : View}, V ≤ h.view → W ≤ h.view →
    V.Agree W m → ∀ {a b : Ref} {p q : Packed}, V.Tree m a p → W.Tree m b q →
      h.order m a b = Packed.order m p q := by
  intro m
  induction m with
  | zero => intro V W _ _ _ a b p q ha; exact ha.elim
  | succ m ih =>
    intro V W hV hW hVW a b p q ha hb
    by_cases hne : a = b
    · subst hne
      rw [order_self, (hVW (m + 1) (Nat.le_refl _) a p q ha hb).1]
    · obtain ⟨oa, hoa, hp⟩ := ha
      obtain ⟨ob, hob, hq⟩ := hb
      have hpa := hV _ _ hoa
      have hpb := hW _ _ hob
      have hVW' := hVW.mono (Nat.le_succ m)
      have hcd : ∀ x s y t, V.Tree m x s → W.Tree m y t → h.order m x y = Packed.order m s t :=
        fun x s y t hx hy => ih hV hW hVW' hx hy
      have hdc : ∀ x s y t, V.Tree m x s → W.Tree m y t → h.order m y x = Packed.order m t s :=
        fun x s y t hx hy => ih hW hV hVW'.symm hy hx
      have hnil : ¬ (oa = .nil ∧ ob = .nil) := by
        rintro ⟨rfl, rfl⟩
        exact hne ((hk.nil a hpa).trans (hk.nil b hpb).symm)
      rw [order_succ hk hne hpa (hp.mono (.of_le hV) fun _ _ => View.Tree.mono hV (Nat.le_refl m)) hpb
        (hq.mono (.of_le hW) fun _ _ => View.Tree.mono hW (Nat.le_refl m)), Packed.order,
        orderLeft_congr hp hq hnil hcd hdc,
        orderLeft_congr hq hp (fun hn => hnil hn.symm) (fun y t x s hy hx => hdc x s y t hx hy)
          (fun y t x s hy hx => hcd x s y t hx hy)]

end Heap

/-! ### Values whose trees are equal -/

theorem orderItems_of_tree {T : Ref → Packed → Prop} {c : Ref → Ref → Option Ordering}
    {d : Packed → Packed → Option Ordering} {xs ys : List Ref} {ps qs : List Packed}
    (hxs : List.Forall₂ T xs ps) (hys : List.Forall₂ T ys qs)
    (hdc : ∀ x s y t, T x s → T y t → d s t = some .eq → c x y = some .eq)
    (h : orderItems d ps qs = some .eq) : orderItems c xs ys = some .eq := by
  rw [orderItems_eq_some_eq] at h ⊢
  induction hxs generalizing ys qs with
  | nil =>
    cases h
    cases hys
    exact .nil
  | cons hx _ ih =>
    cases h with
    | cons hpq h =>
      cases hys with
      | cons hy hys => exact .cons (hdc _ _ _ _ hx hy hpq) (ih hys h)

theorem partnered_of_tree {T : Ref → Packed → Prop} {c : Ref → Ref → Option Ordering}
    {d : Packed → Packed → Option Ordering} {es fs : List (Ref × Ref)}
    {ps qs : List (Packed × Packed)}
    (hes : List.Forall₂ (fun e p => T e.1 p.1 ∧ T e.2 p.2) es ps)
    (hfs : List.Forall₂ (fun f q => T f.1 q.1 ∧ T f.2 q.2) fs qs)
    (hdc : ∀ x s y t, T x s → T y t → d s t = some .eq → c x y = some .eq)
    (hunique : ∀ e ∈ es, ∀ (i j : Nat) (f g : Ref × Ref), fs[i]? = some f → fs[j]? = some g →
      c f.1 e.1 = some .eq → c g.1 e.1 = some .eq → i = j)
    (h : partnered d qs ps = true) : partnered c fs es = true := by
  rw [partnered_iff] at h ⊢
  intro e he
  obtain ⟨p, hp, hep⟩ := forall₂_mem_left hes he
  obtain ⟨w, hw, hvalue⟩ := h p hp
  obtain ⟨i, k, hi, hkey⟩ := partner?_eq_some hw
  have hrel := forall₂_getElem? hfs i
  rw [hi] at hrel
  generalize hf : fs[i]? = f at hrel
  cases hrel with
  | @some f _ hfq =>
    have hfe : c f.1 e.1 = some .eq := hdc _ _ _ _ hfq.1 hep.1 hkey
    refine ⟨f.2, ?_, hdc _ _ _ _ hep.2 hfq.2 hvalue⟩
    exact partner?_of_unique hf hfe fun j l v hj hl => hunique e he j i (l, v) f hj hf hl hfe

namespace Heap

variable {h : Heap}

/-- No key of a hash in the view equals two keys of one hash in the view. -/
def Separate (h : Heap) (V : View) : Prop :=
  ∀ x y s t, V x (.hash s) → V y (.hash t) → ∀ key ∈ s.keys, ∀ (i j : Nat) (k l : Ref),
    t.keys[i]? = some k → t.keys[j]? = some l →
    h.equals k key = .ok true → h.equals l key = .ok true → i = j

/-- Where keys are separate, values with equal trees are equal. -/
theorem order_of_tree (hk : h.ByKind) (hnest : h.nesting = 0) {V : View} (hV : V ≤ h.view)
    (hsep : h.Separate V) : ∀ {m : Nat}, m ≤ maxCompareDepth + 1 → ∀ {a b : Ref} {p q : Packed},
      V.Tree m a p → V.Tree m b q → Packed.order m p q = some .eq → h.order m a b = some .eq := by
  intro m
  induction m with
  | zero => intro _ a b p q ha; exact ha.elim
  | succ m ih =>
    intro hm a b p q ha hb heq
    by_cases hne : a = b
    · subst hne
      exact order_self _
    obtain ⟨oa, hoa, hp⟩ := ha
    obtain ⟨ob, hob, hq⟩ := hb
    have hpa := hV _ _ hoa
    have hpb := hV _ _ hob
    have himp : ∀ x s y t, V.Tree m x s → V.Tree m y t → Packed.order m s t = some .eq →
        h.order m x y = some .eq := fun x s y t => ih (by omega)
    -- the entries of one hash find their partners in the other as the trees do
    have hentries : ∀ {x y : Ref} {s t : HashTable} {ps qs : List (Packed × Packed)},
        V x (.hash s) → V y (.hash t) →
        List.Forall₂ (fun e p => V.Tree m e.1 p.1 ∧ V.Tree m e.2 p.2) s.entries.toList ps →
        List.Forall₂ (fun e p => V.Tree m e.1 p.1 ∧ V.Tree m e.2 p.2) t.entries.toList qs →
        orderEntries (Packed.order m) ps qs = some .eq →
        orderEntries (h.order m) s.entries.toList t.entries.toList = some .eq := by
      intro x y s t ps qs hx hy hes hfs hord
      simp only [orderEntries, ite_eq_left_iff, reduceCtorEq, imp_false, not_not] at hord ⊢
      refine ⟨by rw [hes.length_eq, hfs.length_eq]; exact hord.1, ?_⟩
      refine partnered_of_tree hes hfs himp ?_ hord.2
      intro e he i j f g hf hg hfe hge
      obtain ⟨pe, -, hpe, -⟩ := forall₂_mem_left hes he
      have hequal : ∀ {i : Nat} {f : Ref × Ref}, t.entries.toList[i]? = some f →
          h.order m f.1 e.1 = some .eq → t.keys[i]? = some f.1 ∧ h.equals f.1 e.1 = .ok true := by
        intro i f hf hfe
        obtain ⟨qf, -, hqf, -⟩ := forall₂_mem_left hfs (List.mem_of_getElem? hf)
        have hplace : t.keys[i]? = some f.1 := by
          rw [HashTable.keys, Array.getElem?_map, ← Array.getElem?_toList, hf]
          rfl
        refine ⟨hplace, ?_⟩
        rw [equals_eq hk hnest (by omega) (hqf.mono hV (Nat.le_refl m))
          (hpe.mono hV (Nat.le_refl m)), hfe]
        rfl
      have hkey : e.1 ∈ s.keys := by
        simpa [HashTable.keys] using ⟨e.2, Array.mem_toList_iff.mp he⟩
      exact hsep x y s t hx hy e.1 hkey i j f.1 g.1 (hequal hf hfe).1 (hequal hg hge).1
        (hequal hf hfe).2 (hequal hg hge).2
    rw [order_succ hk hne hpa (hp.mono (.of_le hV) fun _ _ => View.Tree.mono hV (Nat.le_refl m)) hpb
      (hq.mono (.of_le hV) fun _ _ => View.Tree.mono hV (Nat.le_refl m))]
    cases hp with
    | nil =>
      cases hq with
      | nil => exact absurd ((hk.nil a hpa).trans (hk.nil b hpb).symm) hne
      | _ => exact heq
    | @array xs ps hps =>
      cases hq with
      | @array ys qs hqs =>
        -- the left comparison answers: lists that are not comparable are not equal reversed
        have hleft : orderItems (Packed.order m) ps qs = some .eq := by
          cases hleft : orderItems (Packed.order m) ps qs with
          | some o => simpa only [Packed.order, Packed.orderLeft, hleft, bothWays] using heq
          | none =>
            simp only [Packed.order, Packed.orderLeft, hleft, bothWays,
              Option.map_eq_some_iff] at heq
            obtain ⟨o, ho, hswap⟩ := heq
            cases o <;> cases hswap
            exact absurd ho (orderItems_none (fun _ _ => Packed.order_none) hleft)
        simp only [Payload.orderLeft, orderItems_of_tree hps hqs himp hleft, bothWays]
      | _ => exact heq
    | @hash s ps hps =>
      cases hq with
      | @hash t qs hqs =>
        by_cases hleft : orderEntries (Packed.order m) ps qs = some .eq
        · simp only [Payload.orderLeft, hentries hoa hob hps hqs hleft, bothWays]
        · have hright : orderEntries (Packed.order m) qs ps = some .eq := by
            have hnone : orderEntries (Packed.order m) ps qs = none := orderEntries_none hleft
            simp only [Packed.order, Packed.orderLeft, hnone, bothWays,
              Option.map_eq_some_iff] at heq
            obtain ⟨o, ho, hswap⟩ := heq
            cases o <;> cases hswap
            exact ho
          simp only [Payload.orderLeft, hentries hob hoa hqs hps hright, bothWays]
          by_cases hl : orderEntries (h.order m) s.entries.toList t.entries.toList = some .eq
          · rw [hl]
          · rw [orderEntries_none hl]
            rfl
      | _ => exact heq
    | _ => cases hq <;> exact heq

end Heap

/-! ### Plain data -/

/-- Nil, truth values, integers, strings, tasks, and containers. -/
def Payload.Data : Payload → Prop
  | .nil | .bool _ | .int _ | .str _ | .task _ | .array _ | .hash _ => True
  | _ => False

/-- Code, modules and variables: what packing a value reads beside the values in it. -/
def Payload.Aid : Payload → Prop
  | .code _ | .module _ | .var _ => True
  | _ => False

theorem compareBytes_self (b : List UInt8) : compareBytes b b = .eq := by
  induction b with
  | nil => rfl
  | cons x xs ih => simp [compareBytes, ih]

theorem View.Tree.unique {h : Heap} {V W : View} (hV : V ≤ h.view) (hW : W ≤ h.view) {m : Nat}
    {r : Ref} {p q : Packed} (hp : V.Tree m r p) (hq : W.Tree m r q) : p = q := by
  have hp' := Heap.packWithin_eq_ok.mpr (hp.mono hV (Nat.le_refl m))
  have hq' := Heap.packWithin_eq_ok.mpr (hq.mono hW (Nat.le_refl m))
  rw [hp'] at hq'
  exact Except.ok.inj hq'

/-- The key at the place of an entry of the tree. -/
theorem View.key_of_tree {T : Ref → Packed → Prop} {t : HashTable} {qs : List (Packed × Packed)}
    (hqs : List.Forall₂ (fun e q => T e.1 q.1 ∧ T e.2 q.2) t.entries.toList qs) {i : Nat}
    {q : Packed × Packed} (hq : qs[i]? = some q) : ∃ k, t.keys[i]? = some k ∧ T k q.1 := by
  have hrel := forall₂_getElem? hqs i
  rw [hq] at hrel
  generalize he : t.entries.toList[i]? = e at hrel
  cases hrel with
  | @some e _ heq =>
    refine ⟨e.1, ?_, heq.1⟩
    rw [HashTable.keys, Array.getElem?_map, ← Array.getElem?_toList, he]
    rfl

namespace Heap

variable {h : Heap}

/-- No two keys of a hash in the view are equal. -/
def KeysApart (h : Heap) (V : View) : Prop :=
  ∀ x t, V x (.hash t) → ∀ (i j : Nat) (k l : Ref), i ≠ j → t.keys[i]? = some k →
    t.keys[j]? = some l → h.equals k l = .ok false

theorem agree_of_refl {V : View} (hV : V ≤ h.view) {m : Nat}
    (hrefl : ∀ k ≤ m, ∀ a p, V.Tree k a p → Packed.order k p p = some .eq) : V.Agree V m := by
  intro k hk r p q hp hq
  cases hp.unique hV hV hq
  exact ⟨hrefl k hk r p hp, hrefl k hk r p hp⟩

/-- The trees of the keys of a hash are not equal. -/
theorem keys_apart_of_agree (hk : h.ByKind) (hnest : h.nesting = 0) {V : View} (hV : V ≤ h.view)
    (hkeys : h.KeysApart V) {m : Nat} (hm : m ≤ maxCompareDepth + 1) (hagree : V.Agree V m)
    {x : Ref} {t : HashTable} {qs : List (Packed × Packed)} (hx : V x (.hash t))
    (hqs : List.Forall₂ (fun e q => V.Tree m e.1 q.1 ∧ V.Tree m e.2 q.2) t.entries.toList qs)
    {i j : Nat} {p q : Packed × Packed} (hij : i ≠ j) (hp : qs[i]? = some p)
    (hq : qs[j]? = some q) : Packed.order m p.1 q.1 ≠ some .eq := by
  obtain ⟨k, hki, hkp⟩ := View.key_of_tree hqs hp
  obtain ⟨l, hlj, hlq⟩ := View.key_of_tree hqs hq
  have hfalse := hkeys x t hx i j k l hij hki hlj
  rw [equals_eq hk hnest hm (hkp.mono hV (Nat.le_refl m)) (hlq.mono hV (Nat.le_refl m)),
    order_eq_tree hk hV hV hagree hkp hlq] at hfalse
  intro heq
  simp [heq] at hfalse

/-- A tree of plain data without equal keys equals itself. -/
theorem order_refl (hk : h.ByKind) (hnest : h.nesting = 0) {V : View} (hV : V ≤ h.view)
    (hdata : ∀ r o, V r o → o.Data ∨ o.Aid) (hkeys : h.KeysApart V) : ∀ {m : Nat},
    m ≤ maxCompareDepth + 1 → ∀ {a : Ref} {p : Packed}, V.Tree m a p →
      Packed.order m p p = some .eq := by
  intro m
  induction m using Nat.strongRecOn with
  | ind m ih =>
    intro hm a p ha
    cases m with
    | zero => exact ha.elim
    | succ m =>
      obtain ⟨o, ho, hp⟩ := ha
      have hbelow : ∀ {x q}, V.Tree m x q → Packed.order m q q = some .eq :=
        fun hx => ih m (by omega) (by omega) hx
      have hleft : p.orderLeft (Packed.order m) p = some .eq := by
        cases hp with
        | nil => rfl
        | bool b => simp [Packed.orderLeft, compareBools]
        | int i => simp [Packed.orderLeft, Packed.orderNumbers, Packed.number?, Number.compare]
        | str b => simp [Packed.orderLeft, compareBytes_self]
        | task t => simp [Packed.orderLeft]
        | float x => rcases hdata _ _ ho with hd | hd <;> exact hd.elim
        | error => rcases hdata _ _ ho with hd | hd <;> exact hd.elim
        | method => rcases hdata _ _ ho with hd | hd <;> exact hd.elim
        | @array items ps hps =>
          apply orderItems_eq_some_eq.mpr
          apply List.forall₂_same.mpr
          intro q hq
          obtain ⟨x, -, hx⟩ := forall₂_mem_right hps hq
          exact hbelow hx
        | @hash t qs hqs =>
          have hagree : V.Agree V m :=
            agree_of_refl hV fun k hkm b q hb => ih k (by omega) (by omega) hb
          apply if_pos
          refine ⟨rfl, partnered_iff.mpr ?_⟩
          intro e he
          obtain ⟨x, -, hx⟩ := forall₂_mem_right hqs he
          obtain ⟨i, hi⟩ := List.getElem?_of_mem he
          refine ⟨e.2, partner?_of_unique hi (hbelow hx.1) ?_, hbelow hx.2⟩
          intro j l v hj hl
          by_contra hne
          exact keys_apart_of_agree hk hnest hV hkeys (by omega) hagree ho hqs hne hj hi hl
      rw [Packed.order, hleft]
      rfl

end Heap
end ObjectMachine
