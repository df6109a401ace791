import Constituency.Error

/-! # Checked computations that succeed

* `Checked.bind_eq_ok`: a sequence succeeds when its parts do.
* `Checked.fetch_eq_ok`, `Checked.put_of_lt`: access to a table.
* `Checked.foldlM_ok`: a loop whose every step succeeds and keeps an invariant.
* `Checked.foldlM_rel`: two loops over one list.
* `Checked.mapM_eq_ok`: a list whose every element has a result.
* `Checked.mapM_eq_error`, `Checked.exists_mem_of_mapM_error`, `Checked.forM_append_cons`,
  `Checked.forall_ok_or_first`: an element that fails, and the first of them. -/

namespace Constituency.Checked
set_option autoImplicit false

variable {α β : Type}

theorem bind_eq_ok {x : Checked α} {f : α → Checked β} {b : β} :
    (x >>= f) = .ok b ↔ ∃ a, x = .ok a ∧ f a = .ok b := by
  cases x with
  | error e =>
    constructor
    · intro h
      cases h
    · rintro ⟨a, ha, -⟩
      cases ha
  | ok a =>
    constructor
    · intro h
      exact ⟨a, rfl, h⟩
    · rintro ⟨a', ha, h⟩
      cases ha
      exact h

@[simp] theorem ok_bind (a : α) (f : α → Checked β) : ((.ok a : Checked α) >>= f) = f a := rfl

@[simp] theorem pure_eq (a : α) : (pure a : Checked α) = .ok a := rfl

/-- A result that was read off a computation is that of a success. -/
theorem exists_ok_of_map {x : Checked α} {f : α → β} {b : β} (h : x.toOption.map f = some b) :
    ∃ a, x = .ok a ∧ f a = b := by
  cases x with
  | error e => cases h
  | ok a => exact ⟨a, rfl, Option.some.inj h⟩

/-! ## Tables -/

theorem present_eq_ok {o : Option α} {x : α} : present o = .ok x ↔ o = some x := by
  cases o with
  | none => exact ⟨nofun, nofun⟩
  | some y =>
    constructor
    · intro h
      cases h
      rfl
    · intro h
      cases h
      rfl

theorem fetch_eq_ok {xs : Array α} {i : Nat} {x : α} : fetch xs i = .ok x ↔ xs[i]? = some x :=
  present_eq_ok

theorem fetch_of_lt {xs : Array α} {i : Nat} (h : i < xs.size) : fetch xs i = .ok xs[i] :=
  fetch_eq_ok.2 (Array.getElem?_eq_getElem h)

theorem put_of_lt {xs : Array α} {i : Nat} (h : i < xs.size) (x : α) :
    put xs i x = .ok (xs.set i x h) := by
  unfold put
  rw [dif_pos h]

/-! ## Loops -/

/-- A loop succeeds and arrives at its invariant when every step keeps the invariant. The invariant
may speak of the elements that have been gone through. -/
theorem foldlM_ok {f : β → α → Checked β} (inv : List α → β → Prop) (l : List α)
    (step : ∀ done a rest b, l = done ++ a :: rest → inv done b →
      ∃ c, f b a = .ok c ∧ inv (done ++ [a]) c) (b : β) (h : inv [] b) :
    ∃ c, l.foldlM f b = .ok c ∧ inv l c := by
  suffices hgen : ∀ rest done b, l = done ++ rest → inv done b →
      ∃ c, rest.foldlM f b = .ok c ∧ inv l c from hgen l [] b rfl h
  intro rest
  induction rest with
  | nil =>
    intro done b hl hb
    rw [List.append_nil] at hl
    rw [hl]
    exact ⟨b, rfl, hb⟩
  | cons a rest ih =>
    intro done b hl hb
    obtain ⟨c, hc, hinv⟩ := step done a rest b hl hb
    obtain ⟨r, hr, hdone⟩ := ih (done ++ [a]) c (by rw [hl, List.append_assoc]; rfl) hinv
    refine ⟨r, ?_, hdone⟩
    rw [List.foldlM_cons, hc]
    exact hr

/-- What every successful step keeps holds after a loop that has succeeded. -/
theorem foldlM_inv {f : β → α → Checked β} (inv : List α → β → Prop)
    (step : ∀ done a b c, inv done b → f b a = .ok c → inv (done ++ [a]) c) {l : List α}
    (done : List α) {b r : β} (hb : inv done b) (h : l.foldlM f b = .ok r) : inv (done ++ l) r := by
  induction l generalizing done b with
  | nil =>
    cases h
    rw [List.append_nil]
    exact hb
  | cons a l ih =>
    rw [List.foldlM_cons, bind_eq_ok] at h
    obtain ⟨c, hc, hr⟩ := h
    have := ih (done ++ [a]) (step done a b c hb hc) hr
    rwa [List.append_assoc] at this

/-- What every pair of successful steps keeps holds between the results of two loops over one list. -/
theorem foldlM_rel {γ : Type} {f : β → α → Checked β} {g : γ → α → Checked γ} (rel : β → γ → Prop)
    {l : List α} (step : ∀ a ∈ l, ∀ b c b' c', rel b c → f b a = .ok b' → g c a = .ok c' → rel b' c')
    {b b' : β} {c c' : γ} (h : rel b c) (hf : l.foldlM f b = .ok b')
    (hg : l.foldlM g c = .ok c') : rel b' c' := by
  induction l generalizing b c with
  | nil =>
    cases hf
    cases hg
    exact h
  | cons a l ih =>
    rw [List.foldlM_cons, bind_eq_ok] at hf hg
    obtain ⟨b₁, hb, hf⟩ := hf
    obtain ⟨c₁, hc, hg⟩ := hg
    exact ih (fun x hx => step x (List.mem_cons_of_mem _ hx))
      (step a List.mem_cons_self b c b₁ c₁ h hb hc) hf hg

theorem foldlM_flatMap {γ : Type} (f : β → γ → Checked β) (lists : α → List γ) (l : List α) (b : β) :
    (l.flatMap lists).foldlM f b = l.foldlM (fun b a => (lists a).foldlM f b) b := by
  induction l generalizing b with
  | nil => rfl
  | cons a l ih =>
    rw [List.flatMap_cons, List.foldlM_append, List.foldlM_cons]
    congr 1
    funext c
    exact ih c

theorem exists_mem_of_mapM {f : α → Checked β} {l : List α} {results : List β}
    (h : l.mapM f = .ok results) : ∀ a ∈ l, ∃ b ∈ results, f a = .ok b := by
  induction l generalizing results with
  | nil =>
    intro a ha
    cases ha
  | cons x l ih =>
    rw [List.mapM_cons, bind_eq_ok] at h
    obtain ⟨y, hy, h⟩ := h
    rw [bind_eq_ok] at h
    obtain ⟨ys, hys, h⟩ := h
    cases h
    intro a ha
    rcases List.mem_cons.1 ha with rfl | ha
    · exact ⟨y, List.mem_cons_self .., hy⟩
    · obtain ⟨b, hb, hab⟩ := ih hys a ha
      exact ⟨b, List.mem_cons_of_mem _ hb, hab⟩

theorem mapM_eq_ok {f : α → Checked β} {g : α → β} {l : List α} (h : ∀ a ∈ l, f a = .ok (g a)) :
    l.mapM f = .ok (l.map g) := by
  induction l with
  | nil => rfl
  | cons a l ih =>
    rw [List.mapM_cons, h a List.mem_cons_self, ok_bind,
      ih fun b hb => h b (List.mem_cons_of_mem _ hb)]
    rfl

theorem exists_mapM {f : α → Checked β} {good : β → Prop} {l : List α}
    (h : ∀ a ∈ l, ∃ b, f a = .ok b ∧ good b) :
    ∃ results, l.mapM f = .ok results ∧ ∀ b ∈ results, good b := by
  induction l with
  | nil => exact ⟨[], rfl, nofun⟩
  | cons a l ih =>
    obtain ⟨b, hb, hgood⟩ := h a List.mem_cons_self
    obtain ⟨results, hresults, hall⟩ := ih fun c hc => h c (List.mem_cons_of_mem _ hc)
    refine ⟨b :: results, ?_, List.forall_mem_cons.2 ⟨hgood, hall⟩⟩
    rw [List.mapM_cons, hb, ok_bind, hresults]
    rfl

/-- A list comes to the failure of its first element that fails. -/
theorem mapM_eq_error {f : α → Checked β} {l : List α} {i : Nat} {a : α} {e : Failure}
    (hget : l[i]? = some a) (ha : f a = .error e)
    (hbefore : ∀ j < i, ∀ b, l[j]? = some b → ∃ c, f b = .ok c) : l.mapM f = .error e := by
  induction l generalizing i with
  | nil => cases hget
  | cons x l ih =>
    cases i with
    | zero =>
      obtain rfl : x = a := Option.some.inj hget
      rw [List.mapM_cons, ha]
      rfl
    | succ i =>
      obtain ⟨c, hc⟩ := hbefore 0 (Nat.succ_pos i) x rfl
      have hrest : l.mapM f = .error e :=
        ih hget fun j hj b hb => hbefore (j + 1) (Nat.succ_lt_succ hj) b hb
      rw [List.mapM_cons, hc, ok_bind, hrest]
      rfl

/-- A failure of a list is that of one of its elements. -/
theorem exists_mem_of_mapM_error {f : α → Checked β} {l : List α} {e : Failure}
    (h : l.mapM f = .error e) : ∃ a ∈ l, f a = .error e := by
  induction l with
  | nil => cases h
  | cons a l ih =>
    rw [List.mapM_cons] at h
    cases ha : f a with
    | error e' =>
      rw [ha] at h
      cases h
      exact ⟨a, List.mem_cons_self, ha⟩
    | ok b =>
      rw [ha, ok_bind] at h
      cases hl : l.mapM f with
      | error e' =>
        rw [hl] at h
        cases h
        obtain ⟨a', hmem, ha'⟩ := ih hl
        exact ⟨a', List.mem_cons_of_mem _ hmem, ha'⟩
      | ok results =>
        rw [hl] at h
        cases h

theorem forM_eq_ok {ε : Type} {f : α → Except ε Unit} {l : List α} :
    l.forM f = .ok () ↔ ∀ a ∈ l, f a = .ok () := by
  induction l with
  | nil =>
    constructor
    · intro _ a ha
      cases ha
    · intro _
      rfl
  | cons a l ih =>
    show (f a >>= fun _ => l.forM f) = .ok () ↔ _
    rw [List.forall_mem_cons, ← ih]
    cases f a with
    | error e => exact ⟨nofun, fun h => nomatch h.1⟩
    | ok u => exact ⟨fun h => ⟨rfl, h⟩, fun h => h.2⟩

/-- A loop stops at the first element that fails. -/
theorem forM_append_cons {ε : Type} {f : α → Except ε Unit} {before after : List α} {a : α} {e : ε}
    (hbefore : ∀ b ∈ before, f b = .ok ()) (ha : f a = .error e) :
    (before ++ a :: after).forM f = .error e := by
  induction before with
  | nil =>
    show (f a >>= fun _ => after.forM f) = .error e
    rw [ha]
    rfl
  | cons b before ih =>
    show (f b >>= fun _ => (before ++ a :: after).forM f) = .error e
    rw [hbefore b List.mem_cons_self]
    exact ih fun c hc => hbefore c (List.mem_cons_of_mem _ hc)

/-- Of a list that not all is well with, there is a first element that fails. -/
theorem forall_ok_or_first {ε : Type} (f : α → Except ε Unit) (l : List α) :
    (∀ a ∈ l, f a = .ok ()) ∨ ∃ before a after e, l = before ++ a :: after ∧
      (∀ b ∈ before, f b = .ok ()) ∧ f a = .error e := by
  induction l with
  | nil => exact .inl nofun
  | cons a l ih =>
    cases ha : f a with
    | error e => exact .inr ⟨[], a, l, e, rfl, nofun, ha⟩
    | ok u =>
      cases ih with
      | inl hall => exact .inl (List.forall_mem_cons.2 ⟨ha, hall⟩)
      | inr hfirst =>
        obtain ⟨before, b, after, e, rfl, hbefore, hb⟩ := hfirst
        exact .inr ⟨a :: before, b, after, e, rfl, List.forall_mem_cons.2 ⟨ha, hbefore⟩, hb⟩

end Constituency.Checked
