import Mathlib.Data.List.Infix

/-! Each shard of a map is behind a lock that its holder cannot take again. A program returns
nothing where it waits for a lock that the task running it holds itself. -/
namespace ShardLocks

open List Option

inductive LockMode where
  | read
  | write
  deriving DecidableEq

variable {σ κ α β : Type}

/-- A task that holds some locks. -/
abbrev LockM (σ : Type) := StateT (List (σ × LockMode)) Option

theorem pure_apply (a : α) (held : List (σ × LockMode)) :
    (pure a : LockM σ α) held = some (a, held) := rfl

theorem bind_apply (x : LockM σ α) (f : α → LockM σ β) (held : List (σ × LockMode)) :
    (x >>= f) held = (x held).bind fun r => f r.1 r.2 := rfl

section locks
variable [DecidableEq σ]

/-- Readers share a shard. -/
def excludes (mode : LockMode) (shard : σ) (held : σ × LockMode) : Bool :=
  held.1 = shard && (mode = .write || held.2 = .write)

variable (shard : σ) (mode : LockMode)

def acquire : LockM σ Unit := fun held =>
  if held.any (excludes mode shard) then none else some ((), (shard, mode) :: held)

def release : LockM σ Unit := fun held =>
  some ((), held.erase (shard, mode))

variable (body : LockM σ α)

/-- A guard that lives as long as `body` runs. -/
def guarded : LockM σ α := do
  acquire shard mode
  let result ← body
  release shard mode
  return result

/-- What a task of its own does, while this one waits for it. -/
def inTask : LockM σ α := fun held => (body []).map fun r => (r.1, held)

/-- The first entry of a map. The iterator goes through the shards and keeps the lock of the one
it has found the entry in. -/
def firstEntry (entryIn : σ → Option κ) : List σ → LockM σ (Option (σ × κ))
  | [] => return none
  | shard :: shards => do
    acquire shard .read
    match entryIn shard with
    | some key => return some (shard, key)
    | none =>
      release shard .read
      firstEntry entryIn shards

variable {held : List (σ × LockMode)} {shard : σ} {mode : LockMode} {entryIn : σ → Option κ}
  {shards : List σ}

theorem acquire_nil : acquire shard mode [] = some ((), [(shard, mode)]) := rfl

theorem acquire_of_held {mode' : LockMode} (hmem : (shard, mode') ∈ held)
    (h : mode = .write ∨ mode' = .write) : acquire shard mode held = none := by
  have hany : held.any (excludes mode shard) = true :=
    any_eq_true.mpr ⟨_, hmem, by simpa [excludes] using h⟩
  rw [acquire, if_pos hany]

/-- A task that holds nothing can take a lock, and gives it back. -/
theorem guarded_nil (body : LockM σ α) : guarded shard mode body [] =
      (body [(shard, mode)]).map fun r => (r.1, r.2.erase (shard, mode)) := by
  simp only [guarded, bind_apply, acquire_nil, release, bind_some, pure_apply]
  cases body [(shard, mode)] <;> rfl

/-- An iterator cannot pass a shard whose entry the task is about to change. -/
theorem firstEntry_of_writing {w : σ} (hw : w ∈ shards) {r : Option (σ × κ) × List (σ × LockMode)}
    (h : firstEntry entryIn shards [(w, .write)] = some r) :
    ∃ found key, r = (some (found, key), [(found, .read), (w, .write)]) ∧
      entryIn found = some key := by
  induction shards with
  | nil => cases hw
  | cons shard shards ih =>
    by_cases hsame : shard = w
    · subst hsame
      rw [firstEntry] at h
      simp only [bind_apply, acquire_of_held (mem_singleton_self _) (.inr rfl), bind_none] at h
      cases h
    · have hfree : acquire shard .read [(w, .write)] =
          some ((), [(shard, .read), (w, .write)]) := by
        simp [acquire, excludes, Ne.symm hsame]
      rw [firstEntry] at h
      simp only [bind_apply, hfree, bind_some] at h
      cases hentry : entryIn shard with
      | some key =>
        rw [hentry] at h
        cases h
        exact ⟨shard, key, rfl, hentry⟩
      | none =>
        rw [hentry] at h
        simp only [bind_apply, release, erase_cons_head, bind_some] at h
        exact ih ((mem_cons.mp hw).resolve_left (Ne.symm hsame)) h

end locks

theorem foldlM_cons_of_returns {step : α → β → LockM σ α} {a a' : α} {b : β}
    (h : step a b [] = some (a', [])) (bs : List β) :
    (b :: bs).foldlM step a [] = bs.foldlM step a' [] := by
  rw [foldlM_cons]
  simp only [bind_apply, h, bind_some]

/-- If a call waits for itself exactly where it does not meet `Q`, and otherwise gives everything
back, then a sequence of calls returns exactly if each of them meets `Q` where it is made. -/
theorem foldlM_returns_iff {step : α → β → LockM σ α} {Q : α → β → Prop}
    (hstep : ∀ a b, ((∃ a', step a b [] = some (a', [])) ∧ Q a b) ∨ (step a b [] = none ∧ ¬ Q a b))
    {a : α} {bs : List β} : (∃ r, bs.foldlM step a [] = some r) ↔
      ∀ before b, before ++ [b] <+: bs → ∀ r, before.foldlM step a [] = some r → Q r.1 b := by
  induction bs generalizing a with
  | nil =>
    refine ⟨fun _ before b hinitial => ?_, fun _ => ⟨(a, []), rfl⟩⟩
    exact absurd (prefix_nil.mp hinitial) (by simp)
  | cons b bs ih =>
    rcases hstep a b with ⟨⟨a', hreturns⟩, hq⟩ | ⟨hwaits, hq⟩
    · rw [foldlM_cons_of_returns hreturns, ih]
      constructor
      · intro h before b' hinitial r hr
        cases before with
        | nil =>
          cases hr
          rw [(cons_prefix_cons.mp hinitial).1]
          exact hq
        | cons c before =>
          obtain ⟨rfl, hrest⟩ := cons_prefix_cons.mp hinitial
          rw [foldlM_cons_of_returns hreturns] at hr
          exact h before b' hrest r hr
      · intro h before b' hinitial r hr
        refine h (b :: before) b' (cons_prefix_cons.mpr ⟨rfl, hinitial⟩) r ?_
        rw [foldlM_cons_of_returns hreturns]
        exact hr
    · constructor
      · rintro ⟨r, hr⟩
        rw [foldlM_cons] at hr
        simp only [bind_apply, hwaits, bind_none] at hr
        cases hr
      · intro h
        exact absurd (h [] b (cons_prefix_cons.mpr ⟨rfl, nil_prefix⟩) (a, []) rfl) hq

end ShardLocks
