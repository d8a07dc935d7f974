import Mathlib.Init

/-! Rules of pre- and postconditions for `EStateM`. What an error leaves in the state stays, so the
conditions speak about both ways a program can end. -/
namespace Program

open List

variable {ε σ α β : Type} {Q Q' : α → σ → Prop} {E E' : σ → Prop} {s : σ} {t : σ} {bs : List β}
  {f : α → EStateM ε σ (Option β)} {l : List α} {as : List α} {x : EStateM ε σ α} {e : ε} {a : α}

/-- Run from `s`, a program ends in `Q` with a result, or in `E` with an error. Irreducible, so
that no unifier runs the program. -/
@[irreducible] def Ends (x : EStateM ε σ α) (Q : α → σ → Prop) (E : σ → Prop) (s : σ) : Prop :=
  match x s with
  | .ok a t => Q a t
  | .error _ t => E t

/-- The state a program leaves, whichever way it ends. -/
def after (x : EStateM ε σ α) (s : σ) : σ :=
  match x s with
  | .ok _ t => t
  | .error _ t => t

/-- The result of a program, if it ends with one. -/
def result? (x : EStateM ε σ α) (s : σ) : Option α :=
  match x s with
  | .ok a _ => some a
  | .error _ _ => none

/-- Goes on with the value of a computation that can only fail. -/
def require : Except ε α → EStateM ε σ α
  | .ok a => pure a
  | .error e => throw e

/-- Runs a program whose error is only logged: then it has found nothing. -/
def logged (x : EStateM ε σ (List α)) : EStateM ε σ (List α) := fun s =>
  match x s with
  | .ok a t => .ok a t
  | .error _ t => .ok [] t

/-- Runs a program whose error is told in other words. -/
def mapError (g : ε → ε) (x : EStateM ε σ α) : EStateM ε σ α := fun s =>
  match x s with
  | .ok a t => .ok a t
  | .error e t => .error (g e) t

/-- Runs a body on each element of a list and appends what it finds. -/
def concat (f : α → EStateM ε σ (List β)) : List α → EStateM ε σ (List β)
  | [] => pure []
  | a :: as => do
    let found ← f a
    let rest ← concat f as
    return found ++ rest

/-- Runs a body on each element of a list and collects what it pushes. -/
def collect (f : α → EStateM ε σ (Option β)) : List α → EStateM ε σ (List β)
  | [] => pure []
  | a :: as => do
    let pushed ← f a
    let rest ← collect f as
    return pushed.toList ++ rest

@[simp] theorem ends_pure : Ends (pure a : EStateM ε σ α) Q E = Q a := by
  unfold Ends
  rfl

@[simp] theorem ends_throw : Ends (throw e : EStateM ε σ α) Q E = E := by
  unfold Ends
  rfl

@[simp] theorem ends_get {Q : σ → σ → Prop} : Ends (get : EStateM ε σ σ) Q E = fun s => Q s s := by
  unfold Ends
  rfl

@[simp] theorem ends_modify {f : σ → σ} {Q : PUnit → σ → Prop} :
    Ends (modify f : EStateM ε σ PUnit) Q E = fun s => Q ⟨⟩ (f s) := by
  unfold Ends
  rfl

@[simp] theorem ends_bind {f : α → EStateM ε σ β} {R : β → σ → Prop} :
    Ends (x >>= f) R E = Ends x (fun a => Ends (f a) R E) E := by
  funext s
  unfold Ends
  change (match EStateM.bind x f s with | .ok a t => R a t | .error _ t => E t) = _
  unfold EStateM.bind
  cases x s <;> rfl

@[simp] theorem ends_require {x : Except ε α} : Ends (require x) Q E =
    fun s => (∀ a, x = .ok a → Q a s) ∧ (∀ e, x = .error e → E s) := by
  cases x with
  | ok | error => simp [require]

@[simp] theorem ends_logged {x : EStateM ε σ (List α)} {Q : List α → σ → Prop} :
    Ends (logged x) Q E = Ends x Q (Q []) := by
  funext s
  unfold Ends logged
  cases x s <;> rfl

@[simp] theorem ends_mapError {g : ε → ε} : Ends (mapError g x) Q E = Ends x Q E := by
  funext s
  unfold Ends mapError
  cases x s <;> rfl

theorem ends_ite {c : Prop} [Decidable c] {x y : EStateM ε σ α} : Ends (if c then x else y) Q E =
      fun s => (c → Ends x Q E s) ∧ (¬ c → Ends y Q E s) := by
  by_cases h : c <;> simp [h]

theorem Ends.imp (h : Ends x Q E s) (hQ : ∀ a t, Q a t → Q' a t)
    (hE : ∀ t, E t → E' t) : Ends x Q' E' s := by
  unfold Ends at h ⊢
  cases hx : x s with
  | ok a t =>
    rw [hx] at h
    exact hQ a t h
  | error e t =>
    rw [hx] at h
    exact hE t h

theorem Ends.and (h : Ends x Q E s) (h' : Ends x Q' E' s) :
    Ends x (fun a t => Q a t ∧ Q' a t) (fun t => E t ∧ E' t) s := by
  unfold Ends at h h' ⊢
  cases hx : x s with
  | ok | error =>
    rw [hx] at h h'
    exact ⟨h, h'⟩

/-- The loop rule: the invariant sees what is done and what has been pushed so far. -/
theorem ends_collect_done (I : List α → List β → σ → Prop) (h : ∀ a ∈ as, ∀ done pushed s,
      I done pushed s → Ends (f a) (fun b => I (done ++ [a]) (pushed ++ b.toList)) E s)
    (hs : I [] [] s) : Ends (collect f as) (I as) E s := by
  induction as generalizing I s with
  | nil => simpa [collect] using hs
  | cons a as ih =>
    simp only [collect, ends_bind, ends_pure]
    refine (h a mem_cons_self [] [] s hs).imp (fun b t ht => ?_) fun t => id
    refine ih (fun done pushed => I (a :: done) (b.toList ++ pushed)) ?_ (by simpa using ht)
    intro c hc done pushed u hu
    simpa using h c (mem_cons_of_mem _ hc) _ _ u hu

theorem ends_collect (I : List β → σ → Prop)
    (h : ∀ a ∈ as, ∀ pushed s, I pushed s → Ends (f a) (fun b => I (pushed ++ b.toList)) E s)
    (hs : I [] s) : Ends (collect f as) I E s :=
  ends_collect_done (fun _ => I) (fun a ha _ => h a ha) hs

section
variable (J : σ → Prop)
include J

/-- A loop that keeps `J`, and pushes for an element only what is related to it. -/
theorem ends_collect_mem (R : α → β → Prop)
    (h : ∀ a ∈ as, ∀ s, J s → Ends (f a) (fun b t => J t ∧ ∀ x ∈ b, R a x) E s) (hs : J s) :
    Ends (collect f as) (fun bs t => J t ∧ ∀ x ∈ bs, ∃ a ∈ as, R a x) E s := by
  refine ends_collect _ (fun a ha pushed s hs => ?_) ⟨hs, by simp⟩
  refine (h a ha s hs.1).imp (fun b t ht => ⟨ht.1, fun x hx => ?_⟩) fun t => id
  rcases mem_append.mp hx with hx | hx
  · exact hs.2 x hx
  · exact ⟨a, ha, ht.2 x (by simpa using hx)⟩

/-- A loop that keeps `J`: what is known of each element and what it pushes, if anything. -/
theorem ends_collect_complete (R : α → Option β → Prop)
    (h : ∀ a ∈ as, ∀ s, J s → Ends (f a) (fun b t => J t ∧ R a b) E s) (hs : J s) :
    Ends (collect f as) (fun bs t => J t ∧ (∀ x ∈ bs, ∃ a ∈ as, R a (some x)) ∧
      ∀ a ∈ as, R a none ∨ ∃ x ∈ bs, R a (some x)) E s := by
  refine ends_collect_done (fun done bs t => J t ∧ (∀ x ∈ bs, ∃ a ∈ as, R a (some x)) ∧
    ∀ a ∈ done, R a none ∨ ∃ x ∈ bs, R a (some x)) (fun a ha done pushed s hs => ?_) (by simpa)
  refine (h a ha s hs.1).imp (fun b t ht => ⟨ht.1, fun x hx => ?_, fun c hc => ?_⟩) fun t => id
  · rcases mem_append.mp hx with hx | hx
    · exact hs.2.1 x hx
    · obtain rfl : b = some x := by simpa using hx
      exact ⟨a, ha, ht.2⟩
  · rcases mem_append.mp hc with hc | hc
    · exact (hs.2.2 c hc).imp_right fun ⟨x, hx, hR⟩ => ⟨x, mem_append_left _ hx, hR⟩
    · cases mem_singleton.mp hc
      cases b with
      | none => exact .inl ht.2
      | some x => exact .inr ⟨x, by simp, ht.2⟩

/-- A loop that keeps `J` and pushes for the elements that meet `p`: what it pushes for each. -/
theorem ends_collect_filter {γ : Type} (p : α → Bool) (k : α → γ) (g : β → γ)
    (h : ∀ a ∈ as, ∀ s, J s → Ends (f a)
      (fun b t => J t ∧ if p a then ∃ x, b = some x ∧ g x = k a else b = none) E s) (hs : J s) :
    Ends (collect f as) (fun bs t => J t ∧ bs.map g = (as.filter p).map k) E s := by
  refine ends_collect_done (fun done bs t => J t ∧ bs.map g = (done.filter p).map k)
    (fun a ha done pushed s hs => ?_) ⟨hs, rfl⟩
  refine (h a ha s hs.1).imp (fun b t ht => ⟨ht.1, ?_⟩) fun t => id
  obtain ⟨-, hb⟩ := ht
  split at hb
  next hp =>
    obtain ⟨x, rfl, hx⟩ := hb
    simp [hp, hx, hs.2]
  next hp =>
    subst hb
    simp [hp, hs.2]

/-- The loop rule of `concat`, for an invariant of the state and of each thing found. -/
theorem ends_concat {f : α → EStateM ε σ (List β)} (R : β → Prop)
    (h : ∀ a ∈ as, ∀ s, J s → Ends (f a) (fun b t => J t ∧ ∀ x ∈ b, R x) E s) (hs : J s) :
    Ends (concat f as) (fun bs t => J t ∧ ∀ x ∈ bs, R x) E s := by
  induction as generalizing s with
  | nil => simpa [concat] using hs
  | cons a as ih =>
    simp only [concat, ends_bind, ends_pure]
    refine (h a mem_cons_self s hs).imp (fun b t ht => ?_) fun t => id
    refine (ih (fun a ha => h a (mem_cons_of_mem _ ha)) ht.1).imp (fun bs u hu => ?_)
      fun t => id
    refine ⟨hu.1, fun x hx => ?_⟩
    rcases mem_append.mp hx with hx | hx
    · exact ht.2 x hx
    · exact hu.2 x hx

end

/-- A loop for its effect only: the invariant sees the elements that are done. -/
theorem ends_forM {f : α → EStateM ε σ PUnit} (I : List α → σ → Prop)
    (h : ∀ done a rest, as = done ++ a :: rest → ∀ s, I done s →
      Ends (f a) (fun _ => I (done ++ [a])) E s)
    (hs : I [] s) : Ends (as.forM f) (fun _ => I as) E s := by
  induction as generalizing I s with
  | nil => simpa [List.forM] using hs
  | cons a as ih =>
    change Ends (f a >>= fun _ => as.forM f) _ E s
    rw [ends_bind]
    refine (h [] a as rfl s hs).imp (fun _ t ht => ih (fun done => I (a :: done)) ?_ ht) fun t => id
    exact fun done c rest has => h (a :: done) c rest (by rw [has, cons_append])

/-- However a program ends, its postcondition comes to `P`. -/
theorem ends_iff_of {P : Prop}
    (h : Ends x (fun a t => Q a t ↔ P) (fun t => E t ↔ P) s) : Ends x Q E s ↔ P := by
  unfold Ends at h ⊢
  cases hx : x s with
  | ok | error => simpa only [hx] using h

/-- What is known of the state a program leaves. -/
theorem Ends.after (h : Ends x (fun _ => E) E s) : E (after x s) := by
  unfold Ends at h
  unfold Program.after
  cases hx : x s with
  | ok | error => simpa only [hx] using h

section
variable (h : Ends x Q E s)
include h

/-- What is known of the result of a program. -/
theorem Ends.result? (ha : result? x s = some a) : Q a (Program.after x s) := by
  unfold Ends at h
  unfold Program.result? at ha
  unfold Program.after
  cases hx : x s with
  | ok b t =>
    rw [hx] at ha
    cases ha
    simpa only [hx] using h
  | error e t =>
    rw [hx] at ha
    cases ha

/-- A program that returns does not fail. -/
theorem Ends.of_isSome (hs : (Program.result? x s).isSome) : Ends x Q (fun _ => False) s := by
  unfold Ends at h ⊢
  unfold Program.result? at hs
  cases hx : x s with
  | ok a t => simpa only [hx] using h
  | error e t => simp [hx] at hs

/-- What is known of a program that has returned. -/
theorem Ends.of_ok (hx : x s = .ok a t) :
    Q a t := by
  unfold Ends at h
  simpa only [hx] using h

end

/-- What is known of a program that has failed. -/
theorem Ends.of_result?_none (h : Ends x Q E s)
    (hx : Program.result? x s = none) : E (Program.after x s) := by
  unfold Ends at h
  unfold Program.result? at hx
  unfold Program.after
  cases hx' : x s with
  | ok a t => simp [hx'] at hx
  | error e t => simpa only [hx'] using h

/-- A program that cannot fail returns. -/
theorem Ends.exists_ok (h : Ends x Q (fun _ => False) s) : ∃ a t, x s = .ok a t ∧ Q a t := by
  unfold Ends at h
  cases hx : x s with
  | ok a t => exact ⟨a, t, rfl, by simpa only [hx] using h⟩
  | error e t => simp [hx] at h

theorem exists_logged (x : EStateM ε σ (List α)) (s : σ) : ∃ out t, logged x s = .ok out t := by
  unfold logged
  split
  · exact ⟨_, _, rfl⟩
  · exact ⟨_, _, rfl⟩

theorem bind_eq_ok {x : Except ε α} {f : α → Except ε β} {b : β} :
    (x >>= f) = .ok b ↔ ∃ a, x = .ok a ∧ f a = .ok b := by
  cases x with
  | error | ok => simp [bind, Except.bind]

theorem bind_eq_error {x : Except ε α} {f : α → Except ε β} :
    (x >>= f) = .error e ↔ x = .error e ∨ ∃ a, x = .ok a ∧ f a = .error e := by
  cases x with
  | error | ok => simp [bind, Except.bind]

theorem exists_of_mapM_eq_error {f : α → Except ε β}
    (h : l.mapM f = .error e) : ∃ a ∈ l, f a = .error e := by
  induction l with
  | nil => cases h
  | cons a l ih =>
    rw [mapM_cons] at h
    rcases bind_eq_error.mp h with h | ⟨b, -, h⟩
    · exact ⟨a, mem_cons_self, h⟩
    · rcases bind_eq_error.mp h with h | ⟨bs, -, h⟩
      · obtain ⟨c, hc, h⟩ := ih h
        exact ⟨c, mem_cons_of_mem a hc, h⟩
      · cases h

theorem exists_mem_of_mapM_eq_ok {f : α → Except ε β}
    (h : l.mapM f = .ok bs) (ha : a ∈ l) : ∃ b ∈ bs, f a = .ok b := by
  induction l generalizing bs with
  | nil => cases ha
  | cons c l ih =>
    rw [mapM_cons] at h
    obtain ⟨b, hb, h⟩ := bind_eq_ok.mp h
    obtain ⟨cs, hl, h⟩ := bind_eq_ok.mp h
    cases h
    rcases mem_cons.mp ha with rfl | ha
    · exact ⟨b, mem_cons_self, hb⟩
    · obtain ⟨x, hx, hfx⟩ := ih hl ha
      exact ⟨x, mem_cons_of_mem b hx, hfx⟩

theorem exists_of_mapM_eq_ok {f : α → Except ε β}
    (h : l.mapM f = .ok bs) {b : β} (hb : b ∈ bs) : ∃ a ∈ l, f a = .ok b := by
  induction l generalizing bs with
  | nil =>
    cases h
    cases hb
  | cons a l ih =>
    rw [mapM_cons] at h
    obtain ⟨c, ha, h⟩ := bind_eq_ok.mp h
    obtain ⟨cs, hl, h⟩ := bind_eq_ok.mp h
    cases h
    rcases mem_cons.mp hb with rfl | hb
    · exact ⟨a, mem_cons_self, ha⟩
    · obtain ⟨x, hx, hfx⟩ := ih hl hb
      exact ⟨x, mem_cons_of_mem _ hx, hfx⟩

end Program
