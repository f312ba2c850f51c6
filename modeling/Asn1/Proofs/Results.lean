import Mathlib.Data.List.Forall2

namespace Asn1.Results

variable {ε ε' α β : Type}

theorem bind_eq_ok_iff {result : Except ε α} {next : α → Except ε β} {b : β} :
    result >>= next = .ok b ↔ ∃ a, result = .ok a ∧ next a = .ok b := by
  cases result <;> simp [bind, Except.bind]

theorem bind_unit_eq_ok_iff {result : Except ε Unit} {next : Except ε β} {b : β} :
    (result >>= fun _ => next) = .ok b ↔ result = .ok () ∧ next = .ok b := by
  cases result <;> simp [bind, Except.bind]

theorem mapError_eq_ok_iff {result : Except ε α} {f : ε → ε'} {a : α} :
    result.mapError f = .ok a ↔ result = .ok a := by
  cases result <;> simp [Except.mapError]

theorem map_eq_ok_iff {result : Except ε α} {f : α → β} {b : β} :
    f <$> result = .ok b ↔ ∃ a, result = .ok a ∧ f a = b := by
  cases result <;> simp [Functor.map, Except.map]

@[simp]
theorem pure_eq_ok_iff {a b : α} : (pure a : Except ε α) = .ok b ↔ a = b := by
  simp [pure, Except.pure]

@[simp]
theorem throw_ne_ok {error : ε} {a : α} : (throw error : Except ε α) ≠ .ok a := by
  simp [throw, throwThe, MonadExceptOf.throw]

theorem discard_eq_ok_iff {result : Except ε α} :
    discard result = .ok () ↔ ∃ a, result = .ok a := by
  cases result <;> simp [discard, Functor.discard, Functor.mapConst, Except.map]

theorem ite_throw_eq_ok_iff {condition : Prop} [Decidable condition] {error : ε}
    {result : Except ε α} {a : α} :
    (if condition then throw error else result) = .ok a ↔ ¬condition ∧ result = .ok a := by
  split
  · next h => simp [h]
  · next h => simp [h]

theorem ite_else_throw_eq_ok_iff {condition : Prop} [Decidable condition] {error : ε}
    {result : Except ε α} {a : α} :
    (if condition then result else throw error) = .ok a ↔ condition ∧ result = .ok a := by
  split
  · next h => simp [h]
  · next h => simp [h]

theorem mapM_eq_ok_iff {f : α → Except ε β} {as : List α} {bs : List β} :
    as.mapM f = .ok bs ↔ List.Forall₂ (fun a b => f a = .ok b) as bs := by
  induction as generalizing bs with
  | nil =>
      rw [List.mapM_nil, List.forall₂_nil_left_iff, pure_eq_ok_iff, eq_comm]
  | cons a rest ih =>
      rw [List.mapM_cons, bind_eq_ok_iff, List.forall₂_cons_left_iff]
      constructor
      · rintro ⟨b, hb, hrest⟩
        obtain ⟨bs, hbs, heq⟩ := bind_eq_ok_iff.mp hrest
        exact ⟨b, bs, hb, ih.mp hbs, (pure_eq_ok_iff.mp heq).symm⟩
      · rintro ⟨b, bs, hb, hbs, rfl⟩
        exact ⟨b, hb, bind_eq_ok_iff.mpr ⟨bs, ih.mpr hbs, rfl⟩⟩

theorem forall₂_exists_iff {relation : α → β → Prop} {as : List α} :
    (∃ bs, List.Forall₂ relation as bs) ↔ ∀ a ∈ as, ∃ b, relation a b := by
  induction as with
  | nil => simp
  | cons a rest ih =>
      rw [List.forall_mem_cons, ← ih]
      constructor
      · rintro ⟨bs, hbs⟩
        obtain ⟨b, rest', hb, hrest, -⟩ := List.forall₂_cons_left_iff.mp hbs
        exact ⟨⟨b, hb⟩, rest', hrest⟩
      · rintro ⟨⟨b, hb⟩, rest', hrest⟩
        exact ⟨b :: rest', .cons hb hrest⟩

theorem forall₂_imp_of_mem {relation other : α → β → Prop} {as : List α} {bs : List β}
    (h : List.Forall₂ relation as bs)
    (himp : ∀ a ∈ as, ∀ b ∈ bs, relation a b → other a b) : List.Forall₂ other as bs := by
  induction h with
  | nil => exact .nil
  | cons hrelation _ ih =>
      refine .cons (himp _ List.mem_cons_self _ List.mem_cons_self hrelation) (ih ?_)
      intro a ha b hb
      exact himp a (List.mem_cons_of_mem _ ha) b (List.mem_cons_of_mem _ hb)

theorem forall₂_exists_of_mem {relation : α → β → Prop} {as : List α} {bs : List β}
    (h : List.Forall₂ relation as bs) {b : β} (hb : b ∈ bs) : ∃ a ∈ as, relation a b := by
  induction h with
  | nil => simp at hb
  | cons hrelation _ ih =>
      rcases List.mem_cons.mp hb with rfl | hb
      · exact ⟨_, List.mem_cons_self, hrelation⟩
      · obtain ⟨a, ha, hrelation⟩ := ih hb
        exact ⟨a, List.mem_cons_of_mem _ ha, hrelation⟩

theorem forall₂_exists_of_getElem? {relation : α → β → Prop} {as : List α} {bs : List β}
    (h : List.Forall₂ relation as bs) {i : Nat} {b : β} (hb : bs[i]? = some b) :
    ∃ a, as[i]? = some a ∧ relation a b := by
  induction h generalizing i with
  | nil => simp at hb
  | cons hrelation _ ih =>
      cases i with
      | zero =>
          obtain rfl := Option.some.inj hb
          exact ⟨_, rfl, hrelation⟩
      | succ i => exact ih hb

theorem forall₂_exists_split {relation : α → β → Prop} {as : List α} {front back : List β} {b : β}
    (h : List.Forall₂ relation as (front ++ b :: back)) :
    ∃ before a after, as = before ++ a :: after ∧ List.Forall₂ relation before front ∧
      relation a b := by
  induction front generalizing as with
  | nil =>
      obtain ⟨a, after, hrelation, -, rfl⟩ := List.forall₂_cons_right_iff.mp h
      exact ⟨[], a, after, rfl, .nil, hrelation⟩
  | cons first front ih =>
      obtain ⟨other, as, hfirst, hrest, rfl⟩ := List.forall₂_cons_right_iff.mp h
      obtain ⟨before, a, after, rfl, hbefore, hrelation⟩ := ih hrest
      exact ⟨other :: before, a, after, rfl, .cons hfirst hbefore, hrelation⟩

theorem forall₂_exists_append {relation : α → β → Prop} {front back : List α} {bs : List β}
    (h : List.Forall₂ relation (front ++ back) bs) :
    ∃ first second, bs = first ++ second ∧ List.Forall₂ relation front first ∧
      List.Forall₂ relation back second := by
  exact ⟨bs.take front.length, bs.drop front.length, (List.take_append_drop _ _).symm,
    (List.forall₂_take_append _ _ _ h.flip).flip, (List.forall₂_drop_append _ _ _ h.flip).flip⟩

theorem pairwise_of_forall₂ {relation : α → β → Prop} {order : α → α → Prop}
    {other : β → β → Prop} {as : List α} {bs : List β} (h : List.Forall₂ relation as bs)
    (hother : ∀ {a a' b b'}, relation a b → relation a' b' → order a a' → other b b')
    (has : as.Pairwise order) : bs.Pairwise other := by
  induction h with
  | nil => exact .nil
  | cons hrelation hrest ih =>
      obtain ⟨hfirst, has⟩ := List.pairwise_cons.mp has
      refine List.pairwise_cons.mpr ⟨?_, ih has⟩
      intro b hb
      obtain ⟨a, ha, hab⟩ := forall₂_exists_of_mem hrest hb
      exact hother hrelation hab (hfirst a ha)

theorem forall₂_exists_of_zipWith_eq {γ : Type} {f : α → β → γ} {relation : α → β → Prop}
    {as : List α} {bs : List β} (hall : List.Forall₂ relation as bs) {front back : List γ} {c : γ}
    (h : List.zipWith f as bs = front ++ c :: back) :
    ∃ as' bs' a b bs'', bs = bs' ++ b :: bs'' ∧ front = List.zipWith f as' bs' ∧ c = f a b ∧
      relation a b ∧ List.Forall₂ relation as' bs' := by
  induction hall generalizing front with
  | nil => simp at h
  | @cons a b as bs hrelation hrest ih =>
      cases front with
      | nil =>
          obtain ⟨rfl, -⟩ := List.cons_eq_cons.mp h
          exact ⟨[], [], a, b, bs, rfl, rfl, rfl, hrelation, .nil⟩
      | cons first front =>
          obtain ⟨rfl, htail⟩ := List.cons_eq_cons.mp h
          obtain ⟨as', bs', a', b', bs'', rfl, rfl, rfl, hab, hfront⟩ := ih htail
          exact ⟨a :: as', b :: bs', a', b', bs'', rfl, rfl, rfl, hab, .cons hrelation hfront⟩

theorem eq_map_of_forall₂ {relation : α → β → Prop} {f : α → β} {as : List α} {bs : List β}
    (h : List.Forall₂ relation as bs) (hf : ∀ a ∈ as, ∀ b, relation a b → b = f a) :
    bs = as.map f := by
  induction h with
  | nil => rfl
  | cons hrelation _ ih =>
      rw [List.map_cons, hf _ List.mem_cons_self _ hrelation,
        ih fun a ha => hf a (List.mem_cons_of_mem _ ha)]

theorem eq_of_forall₂ {relation other : α → β → Prop} {as : List α} {bs cs : List β}
    (h : List.Forall₂ relation as bs) (h' : List.Forall₂ other as cs)
    (hunique : ∀ a b c, relation a b → other a c → b = c) : bs = cs := by
  induction h generalizing cs with
  | nil =>
      cases h'
      rfl
  | cons hfirst _ ih =>
      cases h' with
      | cons hfirst' hrest' => rw [hunique _ _ _ hfirst hfirst', ih hrest']

theorem map_eq_map_of_forall₂ {γ : Type} {relation : α → β → Prop} {f : α → γ} {g : β → γ}
    {as : List α} {bs : List β} (h : List.Forall₂ relation as bs)
    (hfg : ∀ a ∈ as, ∀ b ∈ bs, relation a b → g b = f a) : bs.map g = as.map f := by
  have hbs := eq_map_of_forall₂ (List.forall₂_map_right_iff.mpr (forall₂_imp_of_mem h hfg))
    fun _ _ _ heq => heq
  exact hbs

theorem forM_congr {f g : α → Except ε Unit} {as : List α} (h : ∀ a ∈ as, f a = g a) :
    as.forM f = as.forM g := by
  induction as with
  | nil => rfl
  | cons a rest ih =>
      obtain ⟨ha, hrest⟩ := List.forall_mem_cons.mp h
      change f a >>= (fun _ => rest.forM f) = g a >>= fun _ => rest.forM g
      rw [ha, ih hrest]

theorem forM_eq_ok_iff {f : α → Except ε Unit} {as : List α} :
    as.forM f = .ok () ↔ ∀ a ∈ as, f a = .ok () := by
  induction as with
  | nil => simp [List.forM, pure, Except.pure]
  | cons a rest ih =>
      change f a >>= (fun _ => rest.forM f) = .ok () ↔ _
      rw [bind_eq_ok_iff, List.forall_mem_cons]
      constructor
      · rintro ⟨⟨⟩, ha, hrest⟩
        exact ⟨ha, ih.mp hrest⟩
      · rintro ⟨ha, hrest⟩
        exact ⟨(), ha, ih.mpr hrest⟩

end Asn1.Results
