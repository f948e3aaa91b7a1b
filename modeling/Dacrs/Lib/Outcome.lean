import Mathlib.Tactic

/-!
# Computations that may fail

Inversion of `Except` programs: a `do` block that succeeds (or fails) is peeled one bind
at a time (`bind_eq_ok`, `bind_eq_error`).  For loops over a list, `foldlM_invariant`
turns what one step preserves into what a run preserves; `forM_eq_ok` reads a loop of checks.  `Rel`
runs two programs side by side: they fail alike, or succeed with related results.  `Avoids` keeps a
program away from a kind of exit.
-/

namespace Except

variable {ε α β σ : Type}

theorem bind_eq_ok {x : Except ε α} {f : α → Except ε β} {b : β} :
    (x >>= f) = .ok b ↔ ∃ a, x = .ok a ∧ f a = .ok b := by
  cases x with
  | error e =>
    constructor
    · intro h
      cases h
    · rintro ⟨_, h, _⟩
      cases h
  | ok a =>
    constructor
    · intro h
      exact ⟨a, rfl, h⟩
    · rintro ⟨_, h, hf⟩
      cases h
      exact hf

theorem bind_eq_error {x : Except ε α} {f : α → Except ε β} {e : ε} :
    (x >>= f) = .error e ↔ x = .error e ∨ ∃ a, x = .ok a ∧ f a = .error e := by
  cases x with
  | error e' =>
    constructor
    · intro h
      cases h
      exact .inl rfl
    · rintro (h | ⟨_, h, _⟩)
      · cases h
        rfl
      · cases h
  | ok a =>
    constructor
    · intro h
      exact .inr ⟨a, rfl, h⟩
    · rintro (h | ⟨_, h, hf⟩)
      · cases h
      · cases h
        exact hf

/-- A run that can be evaluated to a result. -/
theorem exists_of_toOption {x : Except ε α} (h : x.toOption.isSome = true) : ∃ a, x = .ok a := by
  cases x with
  | error e => cases h
  | ok a => exact ⟨a, rfl⟩

@[simp] theorem ok_bind (a : α) (f : α → Except ε β) : (Except.ok a >>= f) = f a := rfl

@[simp] theorem error_bind (e : ε) (f : α → Except ε β) : (Except.error e >>= f) = .error e := rfl

@[simp] theorem pure_eq_ok (a : α) : (pure a : Except ε α) = .ok a := rfl

/-- What one step of a loop preserves, the loop preserves. -/
theorem foldlM_invariant (P : σ → Prop) (f : σ → α → Except ε σ) (l : List α)
    (hstep : ∀ s a s', a ∈ l → P s → f s a = .ok s' → P s') {s s' : σ} (h0 : P s)
    (hrun : l.foldlM f s = .ok s') : P s' := by
  induction l generalizing s with
  | nil =>
    cases hrun
    exact h0
  | cons a l ih =>
    rw [List.foldlM_cons, bind_eq_ok] at hrun
    obtain ⟨s₁, h1, h2⟩ := hrun
    have hmem : ∀ b ∈ l, b ∈ a :: l := fun b hb => List.mem_cons_of_mem a hb
    exact ih (fun s b s' hb => hstep s b s' (hmem b hb)) (hstep s a s₁ List.mem_cons_self h0 h1) h2

/-- The same of what depends on the items so far, when a step may use that the loop came so far. -/
theorem foldlM_prefix_invariant (P : List α → σ → Prop) (f : σ → α → Except ε σ) {l : List α} {s₀ s : σ}
    (hstep : ∀ pre a post s s', l = pre ++ a :: post → pre.foldlM f s₀ = .ok s → P pre s →
      f s a = .ok s' → P (pre ++ [a]) s')
    (h0 : P [] s₀) (hrun : l.foldlM f s₀ = .ok s) : P l s := by
  have hfrom : ∀ post pre s₁, l = pre ++ post → pre.foldlM f s₀ = .ok s₁ → P pre s₁ →
      post.foldlM f s₁ = .ok s → P l s := by
    intro post
    induction post with
    | nil =>
      intro pre s₁ hl _ hP hpost
      cases hpost
      rw [List.append_nil] at hl
      rw [hl]
      exact hP
    | cons a post ih =>
      intro pre s₁ hl hpre hP hpost
      rw [List.foldlM_cons, bind_eq_ok] at hpost
      obtain ⟨s₂, h1, h2⟩ := hpost
      have hnext : (pre ++ [a]).foldlM f s₀ = .ok s₂ := by
        rw [List.foldlM_append, hpre]
        show (f s₁ a >>= fun s' => pure s') = .ok s₂
        rw [h1]
        rfl
      apply ih (pre ++ [a]) s₂ ?_ hnext (hstep pre a post s₁ s₂ hl hpre hP h1) h2
      rw [hl, List.append_assoc]
      rfl
  exact hfrom l [] s₀ rfl rfl h0 hrun

/-- A loop that only checks goes through when every check does. -/
theorem forM_eq_ok {l : List α} {f : α → Except ε Unit} {u : Unit} :
    l.forM f = .ok u ↔ ∀ a ∈ l, f a = .ok () := by
  induction l with
  | nil => exact iff_of_true rfl fun _ hb => nomatch hb
  | cons a l ih =>
    show (f a >>= fun _ => l.forM f) = .ok u ↔ _
    rw [bind_eq_ok]
    constructor
    · rintro ⟨_, h1, h2⟩ b hb
      rcases List.mem_cons.mp hb with rfl | hb
      · exact h1
      · exact ih.mp h2 b hb
    · intro h
      have hl : ∀ b ∈ l, f b = .ok () := fun b hb => h b (List.mem_cons_of_mem a hb)
      exact ⟨(), h a List.mem_cons_self, ih.mpr hl⟩

/-! ## Two computations side by side -/

section
variable {γ δ : Type} {R : α → β → Prop} {S : γ → δ → Prop}

/-- Both fail alike, or both succeed with related results. -/
def Rel (R : α → β → Prop) : Except ε α → Except ε β → Prop
  | .ok a, .ok b => R a b
  | .error e, .error e' => e = e'
  | _, _ => False

theorem Rel.error (e : ε) : Rel R (.error e : Except ε α) (.error e) := rfl

theorem Rel.bind {x : Except ε α} {y : Except ε β} {f : α → Except ε γ} {g : β → Except ε δ}
    (h : Rel R x y) (hfg : ∀ a b, R a b → Rel S (f a) (g b)) : Rel S (x >>= f) (y >>= g) := by
  cases x with
  | error e =>
    cases y with
    | error e' => exact h
    | ok b => exact h.elim
  | ok a =>
    cases y with
    | error e' => exact h.elim
    | ok b => exact hfg a b h

/-- What succeeds has a related success on the other side. -/
theorem Rel.ok_left {x : Except ε α} {y : Except ε β} {a : α} (h : Rel R x y) (hx : x = .ok a) :
    ∃ b, y = .ok b ∧ R a b := by
  subst hx
  cases y with
  | error e => exact h.elim
  | ok b => exact ⟨b, rfl, h⟩

theorem Rel.ok_right {x : Except ε α} {y : Except ε β} {b : β} (h : Rel R x y) (hy : y = .ok b) :
    ∃ a, x = .ok a ∧ R a b := by
  subst hy
  cases x with
  | error e => exact h.elim
  | ok a => exact ⟨a, rfl, h⟩

/-- Two loops over one list. -/
theorem Rel.foldlM {ι : Type} {f : α → ι → Except ε α} {g : β → ι → Except ε β}
    (hfg : ∀ a b i, R a b → Rel R (f a i) (g b i)) (l : List ι) {a : α} {b : β} (h : R a b) :
    Rel R (l.foldlM f a) (l.foldlM g b) := by
  induction l generalizing a b with
  | nil => exact h
  | cons i l ih =>
    rw [List.foldlM_cons, List.foldlM_cons]
    exact (hfg a b i h).bind fun a' b' h' => ih h'

end

/-! ## Exits of a kind -/

section
variable {P : ε → Prop}

/-- The computation does not end in an exit of the kind. -/
def Avoids (P : ε → Prop) (x : Except ε α) : Prop := ∀ e, x = .error e → ¬ P e

@[simp] theorem avoids_ok (a : α) : Avoids P (.ok a : Except ε α) := by
  intro e h
  cases h

@[simp] theorem avoids_error {e : ε} : Avoids P (.error e : Except ε α) ↔ ¬ P e := by
  constructor
  · intro h
    exact h e rfl
  · intro h e' he
    cases he
    exact h

theorem avoids_bind {x : Except ε α} {f : α → Except ε β} :
    Avoids P (x >>= f) ↔ Avoids P x ∧ ∀ a, x = .ok a → Avoids P (f a) := by
  cases x with
  | error e =>
    rw [error_bind, avoids_error, avoids_error]
    constructor
    · intro h
      refine ⟨h, fun a ha => ?_⟩
      cases ha
    · exact And.left
  | ok a =>
    rw [ok_bind]
    constructor
    · intro h
      refine ⟨avoids_ok a, fun b hb => ?_⟩
      cases hb
      exact h
    · intro h
      exact h.2 a rfl

theorem Avoids.foldlM {ι : Type} {f : α → ι → Except ε α} (hf : ∀ a i, Avoids P (f a i))
    (l : List ι) (a : α) : Avoids P (l.foldlM f a) := by
  induction l generalizing a with
  | nil => exact avoids_ok a
  | cons i l ih =>
    rw [List.foldlM_cons, avoids_bind]
    exact ⟨hf a i, fun b _ => ih b⟩

theorem Avoids.forM {f : α → Except ε Unit} {l : List α} (hf : ∀ a ∈ l, Avoids P (f a)) :
    Avoids P (l.forM f) := by
  induction l with
  | nil => exact avoids_ok ()
  | cons a l ih =>
    refine avoids_bind.mpr ⟨hf a List.mem_cons_self, fun _ _ => ?_⟩
    exact ih fun b hb => hf b (List.mem_cons_of_mem a hb)

/-- A loop over steps that have nothing to hand on avoids what they all avoid. -/
theorem avoids_forM {f : α → Except ε Unit} {l : List α} (hf : ∀ a ∈ l, Avoids P (f a) → f a = .ok ()) :
    Avoids P (l.forM f) ↔ ∀ a ∈ l, Avoids P (f a) := by
  refine ⟨fun h => ?_, Avoids.forM⟩
  induction l with
  | nil => exact fun a ha => absurd ha List.not_mem_nil
  | cons a l ih =>
    obtain ⟨hhead, htail⟩ := avoids_bind.mp h
    have hrest := ih (fun b hb => hf b (List.mem_cons_of_mem a hb)) (htail () (hf a List.mem_cons_self hhead))
    intro b hb
    rcases List.mem_cons.mp hb with rfl | hb
    · exact hhead
    · exact hrest b hb

/-- Every step of a loop is safe where it is taken. -/
def StepsSafe {ι : Type} (f : α → ι → Except ε α) (S : α → ι → Prop) : α → List ι → Prop
  | _, [] => True
  | a, i :: l => S a i ∧ ∀ b, f a i = .ok b → StepsSafe f S b l

/-- A loop avoids what each of its steps avoids. -/
theorem avoids_foldlM_of_mem {ι : Type} {f : α → ι → Except ε α} {S : α → ι → Prop} (l : List ι)
    (hf : ∀ a, ∀ i ∈ l, Avoids P (f a i) ↔ S a i) (a : α) :
    Avoids P (l.foldlM f a) ↔ StepsSafe f S a l := by
  induction l generalizing a with
  | nil => exact iff_of_true (avoids_ok a) trivial
  | cons i l ih =>
    rw [List.foldlM_cons, avoids_bind, hf a i (List.mem_cons_self ..)]
    simp only [ih fun a j hj => hf a j (List.mem_cons_of_mem _ hj)]
    rfl

theorem avoids_foldlM {ι : Type} {f : α → ι → Except ε α} {S : α → ι → Prop}
    (hf : ∀ a i, Avoids P (f a i) ↔ S a i) (l : List ι) (a : α) :
    Avoids P (l.foldlM f a) ↔ StepsSafe f S a l :=
  avoids_foldlM_of_mem l (fun a i _ => hf a i) a

/-- The two computations are the same, unless the first ends in an exit of the kind. -/
def SameUnless (P : ε → Prop) (x y : Except ε α) : Prop := x = y ∨ ¬ Avoids P x

theorem SameUnless.refl (x : Except ε α) : SameUnless P x x := .inl rfl

theorem SameUnless.bind {x y : Except ε α} {f g : α → Except ε β} (h : SameUnless P x y)
    (hfg : ∀ a, y = .ok a → SameUnless P (f a) (g a)) : SameUnless P (x >>= f) (y >>= g) := by
  rcases h with rfl | h
  · cases x with
    | error e => exact .inl rfl
    | ok a => exact hfg a rfl
  · right
    rw [avoids_bind]
    exact fun hxf => h hxf.1

end

end Except
