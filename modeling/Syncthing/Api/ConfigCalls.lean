import Syncthing.Api.Config
import Syncthing.Lib.Transition
import Mathlib.Data.List.Permutation

/-! A call loads the configuration, changes its copy and saves it. The changes are those of the
calls one after the other as long as each call writes over the configuration it started from, and
not while another one saves. -/
namespace Syncthing.Rest

open Transition List CallStep Rest.Stage

namespace ConfigCalls

/-- The store as a set of calls finds it. -/
structure IsInitial (w : ConfigCalls) (c₀ : Config) : Prop where
  stored : w.file.stored = some c₀
  cached : ∀ c ∈ w.cache, c = c₀
  received : ∀ call ∈ w.calls, call.stage = .received

/-- If all calls have succeeded, file and memory hold the result of the calls in some order. -/
def Serialised (env : ApiEnv) (c₀ : Config) (w : ConfigCalls) : Prop :=
  (∀ call ∈ w.calls, call.stage = .answered (.ok ())) →
    ∃ order c, order.Perm (w.calls.map (·.request)) ∧ serial env order c₀ = .ok c ∧
      w.file.stored = some c ∧ w.inMemory = some c

/-- A file is emptied only while it holds what the call started from and no other call saves; what
`load` has read goes to the cache only while the file still holds it, or while another call saves
and sets the cache later. -/
def WriteGuard (w : ConfigCalls) : CallEvent → Prop
  | .openFile base => w.file.stored = some base ∧ w.saving = false
  | .cacheRead config => w.file = .config config ∨ w.saving = true
  | _ => True

end ConfigCalls

theorem serial_append_singleton {env : ApiEnv} {log : List Request} {r : Request} {c₀ c c' : Config}
    (hlog : serial env log c₀ = .ok c) (hr : r.execute env c = .ok c') :
    serial env (log ++ [r]) c₀ = .ok c' := by
  unfold serial at hlog ⊢
  rw [foldlM_append, hlog]
  simp [bind, Except.bind, pure, Except.pure, hr]

/-! ## What each call knows -/

/-- The request has been checked, and what is saved was made from what was loaded. -/
def Call.Sound (env : ApiEnv) (call : Call) : Prop :=
  match call.stage with
  | .received | .answered _ => True
  | .loading | .missed | .read _ => call.request.validate env = .ok ()
  | .saving .default base new _ => call.request.validate env = .ok () ∧ base = new
  | .saving .change base new _ =>
    call.request.validate env = .ok () ∧ call.request.change env base = .ok new

section sound
variable {env : ApiEnv} {r : Request} {phase : SavePhase} {base new : Config} {kind : SaveKind}

theorem sound_afterValidate : Call.Sound env ⟨r, .afterValidate env r⟩ := by
  unfold afterValidate
  cases h : r.validate env with
  | error => trivial
  | ok => exact h

theorem sound_afterLoad (h : r.validate env = .ok ()) (c : Config) :
    Call.Sound env ⟨r, .afterLoad env r c⟩ := by
  unfold afterLoad
  cases hc : r.change env c with
  | error => trivial
  | ok => exact ⟨h, hc⟩

theorem sound_afterSave (h : Call.Sound env ⟨r, .saving kind base new phase⟩) :
    Call.Sound env ⟨r, .afterSave env r new kind⟩ := by
  cases kind with
  | default => exact sound_afterLoad h.1 new
  | change => trivial

theorem sound_phase {phase phase' : SavePhase}
    (h : Call.Sound env ⟨r, .saving kind base new phase⟩) :
    Call.Sound env ⟨r, .saving kind base new phase'⟩ := by
  cases kind <;> exact h

/-- A change that has been saved is the call on its own. -/
theorem execute_of_sound
    (h : Call.Sound env ⟨r, .saving .change base new phase⟩) : r.execute env base = .ok new := by
  obtain ⟨hvalid, hchange⟩ := h
  simpa [Request.execute, hvalid, bind, Except.bind] using hchange

end sound

section stages
variable {env : ApiEnv} {r : Request} {c : Config}

@[simp] theorem inSave_afterValidate : (afterValidate env r).inSave = false := by
  unfold afterValidate
  split <;> rfl

@[simp] theorem succeeded_afterValidate : (afterValidate env r).succeeded = false := by
  unfold afterValidate
  split <;> rfl

@[simp] theorem inSave_afterLoad : (afterLoad env r c).inSave = false := by
  unfold afterLoad
  split <;> rfl

@[simp] theorem succeeded_afterLoad : (afterLoad env r c).succeeded = false := by
  unfold afterLoad
  split <;> rfl

end stages

namespace ConfigCalls

def AllSound (env : ApiEnv) (w : ConfigCalls) : Prop := ∀ call ∈ w.calls, call.Sound env

section allSound
variable {env : ApiEnv} {w : ConfigCalls} {before later : List Call} {call call' : Call}

theorem AllSound.of_eq (h : w.AllSound env) (hw : w.calls = before ++ call :: later) :
    call.Sound env :=
  h call (by simp [hw])

/-- One call moves to another stage, whatever becomes of file and cache. -/
theorem AllSound.set (h : w.AllSound env) (hw : w.calls = before ++ call :: later)
    (hcall : call'.Sound env) (w' : ConfigCalls) :
    (w'.setCalls (before ++ call' :: later)).AllSound env := by
  intro x hx
  have hother : x ∈ before ∨ x ∈ later → x.Sound env := fun hx => h x (by grind)
  rcases mem_append.mp hx with hx | hx
  · exact hother (.inl hx)
  rcases mem_cons.mp hx with rfl | hx
  · exact hcall
  · exact hother (.inr hx)

theorem allSound_step {w' : ConfigCalls} {e : CallEvent} (hstep : CallStep env w e w')
    (h : w.AllSound env) : w'.AllSound env := by
  cases hstep with
  | validate hw => exact h.set hw sound_afterValidate w
  | hit hw => exact h.set hw (sound_afterLoad (h.of_eq hw) _) w
  | miss hw | readFile hw =>
    have hcall := h.of_eq hw
    refine h.set hw ?_ w
    exact hcall
  | createDefault hw =>
    refine h.set hw ?_ w
    exact ⟨h.of_eq hw, rfl⟩
  | cacheRead hw => exact h.set hw (sound_afterLoad (h.of_eq hw) _) _
  | openFile hw | writeFile hw | mixFile hw => exact h.set hw (sound_phase (h.of_eq hw)) _
  | cacheSaved hw => exact h.set hw (sound_afterSave (h.of_eq hw)) _
  | fail hw =>
    refine h.set hw ?_ w
    trivial

end allSound

/-! ## The log of the calls that have succeeded -/

variable (calls : List Call)

def savers : List Call := calls.filter (·.stage.inSave)

/-- The requests of the calls that have succeeded. -/
def done : List Request := (calls.filter (·.stage.succeeded)).map (·.request)

/-- File and cache hold `cur` while no call saves; else one call replaces `cur`. -/
inductive Holds (file : ConfigFile) (cache : Option Config) (cur : Config) : List Call → Prop where
  | quiet (hfile : file.stored = some cur) (hcache : ∀ c ∈ cache, c = cur) : Holds file cache cur []
  | opened {r kind new} (hfile : file = .unreadable) :
    Holds file cache cur [⟨r, .saving kind cur new .opened⟩]
  | written {r kind new} (hfile : file = .config new) :
    Holds file cache cur [⟨r, .saving kind cur new .written⟩]

/-- The calls that have succeeded, in some order, lead to what the store holds. -/
def Logged (env : ApiEnv) (c₀ : Config) (w : ConfigCalls) : Prop :=
  ∃ log cur, log.Perm (done w.calls) ∧ serial env log c₀ = .ok cur ∧
    Holds w.file w.cache cur (savers w.calls)

def NoneFailed (w : ConfigCalls) : Prop := ∀ call ∈ w.calls, call.stage.failed = false

structure Inv (env : ApiEnv) (c₀ : Config) (w : ConfigCalls) : Prop where
  sound : w.AllSound env
  logged : w.NoneFailed → w.Logged env c₀

section logged
variable {env : ApiEnv} {c₀ : Config} {w : ConfigCalls} {before later : List Call} {r : Request}
  {s s' : Stage} {file : ConfigFile} {cache : Option Config}

theorem IsInitial.inv (h : w.IsInitial c₀) : w.Inv env c₀ := by
  have hnone : ∀ p : Stage → Bool, p .received = false → w.calls.filter (p ·.stage) = [] := by
    intro p hp
    rw [filter_eq_nil_iff]
    intro call hcall
    simp [h.received call hcall, hp]
  constructor
  · intro call hcall
    simp [Call.Sound, h.received call hcall]
  · intro _
    refine ⟨[], c₀, ?_, rfl, ?_⟩
    · simp [done, hnone succeeded rfl]
    · rw [savers, hnone inSave rfl]
      exact .quiet h.stored h.cached

theorem savers_set (hs : s.inSave = false) (hs' : s'.inSave = false) :
    savers (before ++ ⟨r, s'⟩ :: later) = savers (before ++ ⟨r, s⟩ :: later) := by
  simp [savers, hs, hs']

theorem perm_done_set {log : List Request} (h : log.Perm (done (before ++ ⟨r, s⟩ :: later)))
    (hs : s.succeeded = false) (hs' : s'.succeeded = false) :
    log.Perm (done (before ++ ⟨r, s'⟩ :: later)) := by
  have heq : done (before ++ ⟨r, s'⟩ :: later) = done (before ++ ⟨r, s⟩ :: later) := by
    simp [done, hs, hs']
  exact heq ▸ h

theorem done_answered (hs : s.succeeded = false) :
    (done (before ++ ⟨r, .answered (.ok ())⟩ :: later)).Perm
      (done (before ++ ⟨r, s⟩ :: later) ++ [r]) := by
  have hok : succeeded (.answered (.ok ())) = true := rfl
  simp only [done, filter_append, filter_cons, hs, hok, map_append, if_true,
    map_cons, append_assoc, Bool.false_eq_true, if_false]
  exact List.Perm.append_left _ (perm_append_singleton r _).symm

/-- A call that does not save and has not succeeded moves on without touching the store. -/
theorem Logged.set (h : w.Logged env c₀) (hw : w.calls = before ++ ⟨r, s⟩ :: later)
    (hsave : s.inSave = false) (hsave' : s'.inSave = false) (hdone : s.succeeded = false)
    (hdone' : s'.succeeded = false) : (w.setCalls (before ++ ⟨r, s'⟩ :: later)).Logged env c₀ := by
  obtain ⟨log, cur, hperm, hserial, hholds⟩ := h
  rw [hw] at hperm hholds
  refine ⟨log, cur, ?_, hserial, ?_⟩
  · exact perm_done_set hperm hdone hdone'
  · exact (savers_set hsave hsave').symm ▸ hholds

theorem savers_eq_nil (h : w.saving = false) : savers w.calls = [] := by
  simpa [savers, saving, filter_eq_nil_iff] using h

theorem savers_eq_singleton (hbefore : before.filter (·.stage.inSave) = [])
    (hlater : later.filter (·.stage.inSave) = []) (hs : s.inSave = true) :
    savers (before ++ ⟨r, s⟩ :: later) = [⟨r, s⟩] := by
  simp [savers, hbefore, hlater, hs]

theorem savers_singleton (h : savers (before ++ ⟨r, s⟩ :: later) = []) (hs : s'.inSave = true) :
    savers (before ++ ⟨r, s'⟩ :: later) = [⟨r, s'⟩] := by
  simp only [savers, filter_append, append_eq_nil_iff] at h
  obtain ⟨hbefore, hlater⟩ := h
  have hlater : later.filter (·.stage.inSave) = [] :=
    eq_nil_of_sublist_nil (hlater ▸ (sublist_cons_self _ _).filter _)
  exact savers_eq_singleton hbefore hlater hs

/-- The only call that saves is the one at hand. -/
theorem savers_of_mem {x call : Call} (hx : savers (before ++ call :: later) = [x])
    (hcall : call.stage.inSave = true) :
    x = call ∧ before.filter (·.stage.inSave) = [] ∧ later.filter (·.stage.inSave) = [] := by
  have hmem : call ∈ savers (before ++ call :: later) := by simp [savers, hcall]
  rw [hx, mem_singleton] at hmem
  have hlength := congrArg length hx
  simp only [savers, filter_append, filter_cons, hcall, if_true, length_append,
    length_cons, length_nil] at hlength
  refine ⟨hmem.symm, eq_nil_of_length_eq_zero (by omega), eq_nil_of_length_eq_zero (by omega)⟩

/-- While a call saves, it is the only one, and the store holds what it started from. -/
theorem Holds.inSave {cur base new : Config} {kind : SaveKind} {phase : SavePhase}
    (h : Holds file cache cur (savers (before ++ ⟨r, .saving kind base new phase⟩ :: later)))
    (hphase : (Stage.saving kind base new phase).inSave = true) :
    base = cur ∧ (phase = .opened → file = .unreadable) ∧ (phase = .written → file = .config new) ∧
      before.filter (·.stage.inSave) = [] ∧ later.filter (·.stage.inSave) = [] := by
  generalize hx : savers (before ++ ⟨r, .saving kind base new phase⟩ :: later) = calls at h
  cases h with
  | quiet =>
    have hmem : (⟨r, .saving kind base new phase⟩ : Call) ∈
        savers (before ++ ⟨r, .saving kind base new phase⟩ :: later) := by simp [savers, hphase]
    simp [hx] at hmem
  | opened hfile =>
    obtain ⟨heq, hbefore, hlater⟩ := savers_of_mem hx hphase
    cases heq
    exact ⟨rfl, fun _ => hfile, nofun, hbefore, hlater⟩
  | written hfile =>
    obtain ⟨heq, hbefore, hlater⟩ := savers_of_mem hx hphase
    cases heq
    exact ⟨rfl, nofun, fun _ => hfile, hbefore, hlater⟩

/-- While another call saves, the cache may hold anything. -/
theorem Holds.setCache {cur c : Config} {calls : List Call} (h : Holds file cache cur calls)
    (hc : file = .config c ∨ calls ≠ []) : Holds file (some c) cur calls := by
  cases h with
  | quiet hfile =>
    have hcur : c = cur := by
      rcases hc with rfl | hc
      · simpa [ConfigFile.stored] using hfile
      · exact absurd rfl hc
    exact .quiet hfile (by simp [hcur])
  | opened hfile => exact .opened hfile
  | written hfile => exact .written hfile

end logged

/-! ## The steps -/

section steps
variable {env : ApiEnv} {c₀ : Config} {w : ConfigCalls} {before later : List Call} {r : Request}
  {kind : SaveKind} {base new c : Config} {e : CallEvent} {w' : ConfigCalls}

theorem logged_cacheRead (hw : w.calls = before ++ ⟨r, .read c⟩ :: later)
    (hok : w.WriteGuard (.cacheRead c)) (h : w.Logged env c₀) :
    ((w.setCache c).setCalls (before ++ ⟨r, .afterLoad env r c⟩ :: later)).Logged env c₀ := by
  obtain ⟨log, cur, hperm, hserial, hholds⟩ := h
  refine Logged.set (w := w.setCache c) ⟨log, cur, hperm, hserial, ?_⟩ hw rfl inSave_afterLoad rfl
    succeeded_afterLoad
  refine hholds.setCache (hok.imp_right fun hsaving hnil => ?_)
  simp [savers, filter_eq_nil_iff] at hnil
  simp only [saving, any_eq_true] at hsaving
  grind

theorem logged_openFile (hw : w.calls = before ++ ⟨r, .saving kind base new .begun⟩ :: later)
    (hok : w.WriteGuard (.openFile base)) (h : w.Logged env c₀) : ((w.setFile .unreadable).setCalls
      (before ++ ⟨r, .saving kind base new .opened⟩ :: later)).Logged env c₀ := by
  obtain ⟨log, cur, hperm, hserial, hholds⟩ := h
  obtain ⟨hstored, hsaving⟩ := hok
  have hnil := savers_eq_nil hsaving
  have hcur : base = cur := by
    rw [hnil] at hholds
    cases hholds with
    | quiet hfile => exact Option.some.inj (hstored.symm.trans hfile)
  subst hcur
  rw [hw] at hperm hnil
  refine ⟨log, base, ?_, hserial, ?_⟩
  · exact perm_done_set hperm rfl rfl
  · have hsavers : savers (before ++ ⟨r, .saving kind base new .opened⟩ :: later) =
        [⟨r, .saving kind base new .opened⟩] := savers_singleton hnil rfl
    exact hsavers.symm ▸ .opened rfl

theorem logged_writeFile (hw : w.calls = before ++ ⟨r, .saving kind base new .opened⟩ :: later)
    (h : w.Logged env c₀) : ((w.setFile (.config new)).setCalls
      (before ++ ⟨r, .saving kind base new .written⟩ :: later)).Logged env c₀ := by
  obtain ⟨log, cur, hperm, hserial, hholds⟩ := h
  rw [hw] at hperm hholds
  obtain ⟨rfl, -, -, hbefore, hlater⟩ := hholds.inSave rfl
  refine ⟨log, base, ?_, hserial, ?_⟩
  · exact perm_done_set hperm rfl rfl
  · have hsavers : savers (before ++ ⟨r, .saving kind base new .written⟩ :: later) =
        [⟨r, .saving kind base new .written⟩] := by
      exact savers_eq_singleton hbefore hlater rfl
    exact hsavers.symm ▸ .written rfl

/-- While the file is emptied by a call, no other one has written to it. -/
theorem Logged.file_eq_unreadable (h : w.Logged env c₀)
    (hw : w.calls = before ++ ⟨r, .saving kind base new .opened⟩ :: later) :
    w.file = .unreadable := by
  obtain ⟨log, cur, -, -, hholds⟩ := h
  rw [hw] at hholds
  exact (hholds.inSave rfl).2.1 rfl

theorem logged_cacheSaved (hw : w.calls = before ++ ⟨r, .saving kind base new .written⟩ :: later)
    (hsound : w.AllSound env) (h : w.Logged env c₀) : ((w.setCache new).setCalls
      (before ++ ⟨r, .afterSave env r new kind⟩ :: later)).Logged env c₀ := by
  obtain ⟨log, cur, hperm, hserial, hholds⟩ := h
  have hcall := hsound.of_eq hw
  rw [hw] at hperm hholds
  obtain ⟨rfl, -, hfile, hbefore, hlater⟩ := hholds.inSave rfl
  have hquiet : ∀ s : Stage, s.inSave = false →
      Holds w.file (some new) new (savers (before ++ ⟨r, s⟩ :: later)) := by
    intro s hs
    have hnil : savers (before ++ ⟨r, s⟩ :: later) = [] := by simp [savers, hs, hbefore, hlater]
    rw [hnil, hfile rfl]
    exact .quiet rfl (by simp)
  cases kind with
  | default =>
    obtain ⟨-, rfl⟩ := hcall
    refine ⟨log, base, ?_, hserial, hquiet _ inSave_afterLoad⟩
    exact perm_done_set hperm rfl succeeded_afterLoad
  | change =>
    refine ⟨log ++ [r], new, ?_, serial_append_singleton hserial (execute_of_sound hcall),
      hquiet _ rfl⟩
    exact (hperm.append_right [r]).trans (done_answered rfl).symm

/-- A call that has not answered has not failed. -/
theorem NoneFailed.of_set {s s' : Stage} (h : (w'.setCalls (before ++ ⟨r, s'⟩ :: later)).NoneFailed)
    (hw : w.calls = before ++ ⟨r, s⟩ :: later) (hs : s.failed = false) : w.NoneFailed := by
  intro x hx
  rw [hw] at hx
  rcases mem_append.mp hx with hx | hx
  · exact h x (mem_append_left _ hx)
  rcases mem_cons.mp hx with rfl | hx
  · exact hs
  · exact h x (mem_append_right _ (mem_cons_of_mem _ hx))

theorem logged_step (hok : w.WriteGuard e)
    (hstep : CallStep env w e w') (h : w.Inv env c₀) (hnone : w'.NoneFailed) :
    w'.Logged env c₀ := by
  cases hstep with
  | validate hw =>
    exact (h.logged (hnone.of_set hw rfl)).set hw rfl inSave_afterValidate rfl
      succeeded_afterValidate
  | hit hw =>
    exact (h.logged (hnone.of_set hw rfl)).set hw rfl inSave_afterLoad rfl succeeded_afterLoad
  | miss hw | createDefault hw | readFile hw =>
    exact (h.logged (hnone.of_set hw rfl)).set hw rfl rfl rfl rfl
  | cacheRead hw => exact logged_cacheRead hw hok (h.logged (hnone.of_set hw rfl))
  | openFile hw => exact logged_openFile hw hok (h.logged (hnone.of_set hw rfl))
  | writeFile hw => exact logged_writeFile hw (h.logged (hnone.of_set hw rfl))
  | mixFile hw hfile => exact absurd ((h.logged (hnone.of_set hw rfl)).file_eq_unreadable hw) hfile
  | cacheSaved hw => exact logged_cacheSaved hw h.sound (h.logged (hnone.of_set hw rfl))
  | fail hw =>
    have hfailed := hnone ⟨_, _⟩ (mem_append_right _ mem_cons_self)
    exact Bool.noConfusion hfailed

theorem inv_step {w w' : ConfigCalls} (hok : w.WriteGuard e)
    (hstep : CallStep env w e w') (h : w.Inv env c₀) : w'.Inv env c₀ :=
  ⟨allSound_step hstep h.sound, logged_step hok hstep h⟩

theorem Inv.serialised (h : w.Inv env c₀) : w.Serialised env c₀ := by
  intro hall
  obtain ⟨log, cur, hperm, hserial, hholds⟩ := h.logged fun call hcall => by
    simp [hall call hcall, failed]
  have hsavers : savers w.calls = [] := by
    rw [savers, filter_eq_nil_iff]
    intro call hcall
    simp [hall call hcall, inSave]
  have hdone : done w.calls = w.calls.map (·.request) := by
    rw [done, filter_eq_self.mpr]
    intro call hcall
    simp [hall call hcall, succeeded]
  rw [hsavers] at hholds
  cases hholds with
  | quiet hfile hcache =>
    refine ⟨log, cur, hdone ▸ hperm, hserial, hfile, ?_⟩
    cases hc : w.cache with
    | none => simpa [inMemory, hc] using hfile
    | some c => simp [inMemory, hc, hcache c (by simp [hc])]

end steps

end ConfigCalls

/-- In a run all of whose steps meet the guard, the calls have the effect of the same calls one
after the other. -/
theorem guarded_calls_serialise {env : ApiEnv} {c₀ : Config} {w w' : ConfigCalls}
    (hw : w.IsInitial c₀) (h : Reach (CallStep env) ConfigCalls.WriteGuard w w') :
    w'.Serialised env c₀ :=
  (h.invariant hw.inv ConfigCalls.inv_step).serialised

def asciiEnv : ApiEnv := ⟨Char.isAlphanum, fun _ => none, fun _ => .default⟩

def twoFolders : Config := ⟨1, [.new "a" "/a", .new "b" "/b"], []⟩

/-- A store that has loaded its file, and two calls that delete a folder each. -/
def twoDeletes : ConfigCalls where
  file := .config twoFolders
  cache := some twoFolders
  calls := [⟨.deleteFolder "a", .received⟩, ⟨.deleteFolder "b", .received⟩]

theorem twoDeletes_isInitial : twoDeletes.IsInitial twoFolders :=
  ⟨rfl, by simp [twoDeletes], by simp [twoDeletes]⟩

/-- The second call starts when the first one has answered. -/
theorem guarded_calls_serialise_deletes : ∃ w,
    Reach (CallStep asciiEnv) ConfigCalls.WriteGuard twoDeletes w ∧
      w.file = .config ⟨1, [], []⟩ ∧ w.Serialised asciiEnv twoFolders := by
  have h : Reach (CallStep asciiEnv) ConfigCalls.WriteGuard twoDeletes _ :=
    (((((((((Reach.refl.next (@validate asciiEnv _ [] _ _ rfl) trivial).next
      (@hit _ _ [] _ _ _ rfl rfl) trivial).next
      (@openFile _ _ [] _ _ _ _ _ rfl) ⟨rfl, rfl⟩).next
      (@writeFile _ _ [] _ _ _ _ _ rfl) trivial).next
      (@cacheSaved _ _ [] _ _ _ _ _ rfl) trivial).next
      (@validate _ _ [_] _ _ rfl) trivial).next
      (@hit _ _ [_] _ _ _ rfl rfl) trivial).next
      (@openFile _ _ [_] _ _ _ _ _ rfl) ⟨rfl, rfl⟩).next
      (@writeFile _ _ [_] _ _ _ _ _ rfl) trivial).next
      (@cacheSaved _ _ [_] _ _ _ _ _ rfl) trivial
  exact ⟨_, h, rfl, guarded_calls_serialise twoDeletes_isInitial h⟩

/-- Both calls load the configuration before one of them saves: both succeed, and the folder that
the first one has deleted is back. -/
theorem concurrent_deletes_lose_one : twoDeletes.IsInitial twoFolders ∧
    ∃ w, Reach (CallStep asciiEnv) (fun _ _ => True) twoDeletes w ∧
      (∀ call ∈ w.calls, call.stage = .answered (.ok ())) ∧
      w.file = .config ⟨1, [.new "a" "/a"], []⟩ ∧ ¬ w.Serialised asciiEnv twoFolders := by
  have h : ∃ w, Reach (CallStep asciiEnv) (fun _ _ => True) twoDeletes w ∧
      w = ⟨.config ⟨1, [.new "a" "/a"], []⟩, some ⟨1, [.new "a" "/a"], []⟩,
        [⟨.deleteFolder "a", .answered (.ok ())⟩, ⟨.deleteFolder "b", .answered (.ok ())⟩]⟩ :=
    ⟨_, Reach.refl.go (@validate asciiEnv _ [] _ _ rfl)
      |>.go (@validate _ _ [_] _ _ rfl)
      |>.go (@hit _ _ [] _ _ _ rfl rfl)
      |>.go (@hit _ _ [_] _ _ _ rfl rfl)
      |>.go (@openFile _ _ [] _ _ _ _ _ rfl)
      |>.go (@writeFile _ _ [] _ _ _ _ _ rfl)
      |>.go (@cacheSaved _ _ [] _ _ _ _ _ rfl)
      |>.go (@openFile _ _ [_] _ _ _ _ _ rfl)
      |>.go (@writeFile _ _ [_] _ _ _ _ _ rfl)
      |>.go (@cacheSaved _ _ [_] _ _ _ _ _ rfl), rfl⟩
  obtain ⟨w, hw, rfl⟩ := h
  refine ⟨twoDeletes_isInitial, _, hw, by simp, rfl, fun hserial => ?_⟩
  obtain ⟨order, c, hperm, hc, hfile, -⟩ := hserial (by simp)
  have horder : order = [.deleteFolder "a", .deleteFolder "b"] ∨
      order = [.deleteFolder "b", .deleteFolder "a"] := by
    simpa [permutations] using mem_permutations.mpr hperm
  have hempty : serial asciiEnv order twoFolders = .ok ⟨1, [], []⟩ := by
    rcases horder with rfl | rfl <;> rfl
  rw [hempty] at hc
  cases hc
  revert hfile
  decide

end Syncthing.Rest
