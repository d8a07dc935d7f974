import Syncthing.Lib.Transition

/-! An object whose calls overlap but take effect one at a time. A history tells when each call is
made, takes effect and returns; the first and the last of these can be seen from outside. -/
namespace AtomicObject

open Transition List

variable {ι ω ρ σ S A : Type*}

inductive Event (ι ω ρ : Type*) where
  | call (c : ι) (op : ω)
  | effect (c : ι) (op : ω) (r : ρ)
  | ret (c : ι) (r : ρ)

namespace Event

def caller : Event ι ω ρ → ι
  | call c _ | effect c .. | ret c _ => c

def visible : Event ι ω ρ → Bool
  | call .. | ret .. => true
  | effect .. => false

end Event

/-- The histories of an object, each with the value it leaves. -/
inductive History (apply : σ → ω → ρ × σ) (start : σ) : List (Event ι ω ρ) → σ → Prop where
  | nil : History apply start [] start
  | call {es value c} (op : ω) (h : History apply start es value) (hnew : ∀ e ∈ es, e.caller ≠ c) :
    History apply start (es ++ [.call c op]) value
  | effect {es value c op} (h : History apply start es value) (hcall : .call c op ∈ es)
    (hpending : ∀ op' r, .effect c op' r ∉ es) :
    History apply start (es ++ [.effect c op (apply value op).1]) (apply value op).2
  | ret {es value c op r} (h : History apply start es value) (heffect : .effect c op r ∈ es)
    (hnew : ∀ r', .ret c r' ∉ es) : History apply start (es ++ [.ret c r]) value

namespace History

variable {apply : σ → ω → ρ × σ} {start value : σ} {es : List (Event ι ω ρ)} {c : ι} {op : ω} {r : ρ}

/-- What has come before an event. -/
def Allowed (apply : σ → ω → ρ × σ) (before : List (Event ι ω ρ)) (value : σ) : Event ι ω ρ → Prop
  | .call c _ => ∀ e ∈ before, e.caller ≠ c
  | .effect c op r => .call c op ∈ before ∧ (apply value op).1 = r
  | .ret c r => ∃ op, .effect c op r ∈ before

section
variable (h : History apply start es value)
include h

theorem split_at {e : Event ι ω ρ} (he : e ∈ es) :
    ∃ before after u, es = before ++ e :: after ∧ History apply start before u ∧
      Allowed apply before u e := by
  -- an event that is not the last one is explained already
  have hlast : ∀ {es : List (Event ι ω ρ)} {u : σ} (e' : Event ι ω ρ),
      History apply start es u → Allowed apply es u e' →
      (e ∈ es → ∃ before after u, es = before ++ e :: after ∧ History apply start before u ∧
        Allowed apply before u e) → e ∈ es ++ [e'] →
      ∃ before after u, es ++ [e'] = before ++ e :: after ∧ History apply start before u ∧
        Allowed apply before u e := by
    intro es u e' h hallowed ih he
    rcases mem_append.mp he with hin | hin
    · obtain ⟨before, after, u, rfl, hrest⟩ := ih hin
      exact ⟨before, after ++ [e'], u, by simp, hrest⟩
    · cases mem_singleton.mp hin
      exact ⟨es, [], u, rfl, h, hallowed⟩
  induction h with
  | nil => cases he
  | call _ h hnew ih => exact hlast _ h hnew ih he
  | effect h hcall _ ih => exact hlast _ h ⟨hcall, rfl⟩ ih he
  | ret h heffect _ ih => exact hlast _ h ⟨_, heffect⟩ ih he

/-- What a call returns is what it came to at one moment between its two ends. -/
theorem ret_explained (hret : .ret c r ∈ es) :
    ∃ before op after u, es = before ++ .effect c op r :: after ∧ History apply start before u ∧
      .call c op ∈ before ∧ (apply u op).1 = r ∧ .ret c r ∈ after := by
  obtain ⟨sofar, later, _, rfl, hsofar, op, heffect⟩ := h.split_at hret
  obtain ⟨before, after, u, rfl, hbefore, hcall, hr⟩ := hsofar.split_at heffect
  exact ⟨before, op, after ++ .ret c r :: later, u, by simp, hbefore, hcall, hr, by simp⟩

/-- A call is made once. -/
theorem call_unique {op' : ω} (hop : .call c op ∈ es) (hop' : .call c op' ∈ es) : op = op' := by
  induction h with
  | nil => cases hop
  | call op'' h hnew ih =>
    rcases mem_append.mp hop with hin | hin
    · rcases mem_append.mp hop' with hin' | hin'
      · exact ih hin hin'
      · cases mem_singleton.mp hin'
        exact absurd rfl (hnew _ hin)
    · cases mem_singleton.mp hin
      rcases mem_append.mp hop' with hin' | hin'
      · exact absurd rfl (hnew _ hin')
      · cases mem_singleton.mp hin'
        rfl
  | effect _ _ _ ih | ret _ _ _ ih => exact ih (by simpa using hop) (by simpa using hop')

/-- A call takes effect once. -/
theorem effect_once : es.Pairwise fun e e' =>
    ∀ c op r op' r', e = .effect c op r → e' ≠ .effect c op' r' := by
  induction h with
  | nil => exact .nil
  | call _ _ _ ih | ret _ _ _ ih => exact pairwise_append.mpr ⟨ih, pairwise_singleton _ _, by simp⟩
  | effect _ _ hpending ih =>
    refine pairwise_append.mpr ⟨ih, pairwise_singleton _ _, ?_⟩
    rintro e he e' he' c op r op' r' rfl rfl
    cases mem_singleton.mp he'
    exact hpending op r he

end

theorem not_effect_of_split {before after : List (Event ι ω ρ)}
    (h : History apply start (before ++ .effect c op r :: after) value) (op' : ω) (r' : ρ) :
    .effect c op' r' ∉ before ++ after := by
  obtain ⟨-, hafter, hbefore⟩ := pairwise_append.mp h.effect_once
  rw [mem_append]
  rintro (hin | hin)
  · exact hbefore _ hin _ mem_cons_self c op' r' op r rfl rfl
  · exact (pairwise_cons.mp hafter).1 _ hin c op r op' r' rfl rfl

/-- A system each of whose steps comes to events that the object allows: its runs show the outside
of a history. -/
theorem exists_of_run {step : S → A → S → Prop} {ok : S → A → Prop}
    {observe : A → Option (Event ι ω ρ)} (I : List (Event ι ω ρ) → σ → S → Prop) {s t : S}
    {run : List (S × A)} (hrun : Run step s run t) (h0 : I [] start s)
    (hstep : ∀ {es value u a v}, ok u a → step u a v → History apply start es value →
      I es value u → ∃ es' value', History apply start es' value' ∧ I es' value' v ∧
        es'.filter Event.visible = es.filter Event.visible ++ (observe a).toList)
    (hok : ∀ x ∈ run, ok x.1 x.2) : ∃ es value, History apply start es value ∧ I es value t ∧
      es.filter Event.visible = run.filterMap fun x => observe x.2 := by
  induction hrun with
  | nil => exact ⟨[], start, .nil, h0, rfl⟩
  | @snoc run t u a _ hs ih =>
    obtain ⟨es, value, hhistory, hI, hvisible⟩ := ih fun x hx => hok x (by simp [hx])
    obtain ⟨es', value', hhistory', hI', hvisible'⟩ := hstep (hok (t, a) (by simp)) hs hhistory hI
    refine ⟨es', value', hhistory', hI', ?_⟩
    rw [hvisible', hvisible, filterMap_append]
    cases hobserve : observe a with
    | none | some => simp [hobserve]

end History
end AtomicObject
