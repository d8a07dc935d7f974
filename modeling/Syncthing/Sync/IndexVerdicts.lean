import Syncthing.Sync.Arbitration
import Syncthing.Sync.PendingPulls

/-!
What a message with one record per name does: each record is judged by what is stored under its
name, whatever the others are. So a message that comes twice does nothing the second time; and the
queue is compared with the records.
-/
namespace Syncthing

open Program List IndexEnv

variable {env : IndexEnv} {s t : FolderState} {full : Bool} {files needed : List FileInfo}
  {f r remote : FileInfo} {out : Option FileInfo}

/-- A remote record is returned to be pulled. -/
def Queues (recorded : Option FileInfo) (remote : FileInfo) : Prop :=
  validateRemoteName remote.name = .ok () ∧ remote.isDeleted = false ∧
    match recorded with
    | none => True
    | some r => needsUpdate r remote = .update ∨
        needsUpdate r remote = .conflict ∧ (isConflict r remote = false ∨
          remoteWinsConflict r remote = true ∧ isMergeableText remote.name = true)

theorem not_accepts_self (f : FileInfo) : ¬ Accepts (some f) f := by
  rintro ⟨-, h | ⟨h, -⟩⟩
  · exact lt_irrefl _ h
  · exact (isConflict_iff.mp h).1 le_rfl

theorem accepts_some_iff : Accepts (some r) f ↔
    validateRemoteName f.name = .ok () ∧ Overrides f r := by
  rw [Accepts, Overrides, needsUpdate_update_iff_lt]

theorem pulledUnlessDeleted_eq_some_iff : pulledUnlessDeleted f = some f ↔ f.isDeleted = false := by
  unfold pulledUnlessDeleted
  cases f.isDeleted <;> simp

namespace IndexEnv.FileProcessed

section
variable (h : FileProcessed env s f out t)
include h

/-- A record that is not accepted leaves everything as it is. -/
theorem eq_of_not_accepts (hnot : ¬ Accepts (s.db.find? f.name) f) : t = s := by
  cases h with
  | rejected | unknownDeletion | ignored | sameVersion | localWins => rfl
  | new hf hd hname =>
    rw [hf] at hnot
    exact absurd ⟨hname, hd⟩ hnot
  | updated l hf hn hname =>
    rw [hf, accepts_some_iff] at hnot
    exact absurd ⟨hname, .inl hn⟩ hnot
  | mergedLater l hf hc hw ht hname | renamed l disk hf hc hw ht hname =>
    rw [hf, accepts_some_iff] at hnot
    exact absurd ⟨hname, .inr ⟨hc, hw⟩⟩ hnot

theorem find?_of_accepts (ha : Accepts (s.db.find? f.name) f) : t.db.find? f.name = some f := by
  cases hf : s.db.find? f.name with
  | some r =>
    rw [hf, accepts_some_iff] at ha
    rw [h.find?_eq_hold ha.1 hf, Challenge.hold_of_beats ha.2]
  | none =>
    rw [hf] at ha
    cases h with
    | new => simp
    | rejected e hname =>
      rw [ha.1] at hname
      cases hname
    | unknownDeletion hnone hd =>
      rw [ha.2] at hd
      cases hd
    | _ => simp_all

theorem out_eq_some_iff : out = some f ↔ Queues (s.db.find? f.name) f := by
  cases h with
  | rejected e hname => simp [Queues, hname]
  | unknownDeletion hf hd => simp [Queues, hd]
  | new hf hd hname => simp [Queues, hf, hd, hname]
  | ignored l hf hn => simp [Queues, hf, hn]
  | updated l hf hn hname => simp [Queues, hf, hn, hname, pulledUnlessDeleted_eq_some_iff]
  | sameVersion l hf hn hc hname =>
    simp [Queues, hf, hn, hc, hname, pulledUnlessDeleted_eq_some_iff]
  | localWins l hf hc hw => simp [Queues, hf, hc, hw, needsUpdate_of_isConflict hc]
  | mergedLater l hf hc hw ht hname =>
    simp [Queues, hf, hw, ht, hname, needsUpdate_of_isConflict hc, pulledUnlessDeleted_eq_some_iff]
  | renamed l disk hf hc hw ht hname => simp [Queues, hf, hc, ht, needsUpdate_of_isConflict hc]

end

end IndexEnv.FileProcessed

/-- What a message does: the verdict on each record is that on what was stored before. -/
structure Judged (s t : FolderState) (files needed : List FileInfo) : Prop where
  needed_iff : ∀ f, f ∈ needed ↔ f ∈ files ∧ Queues (s.db.find? f.name) f
  accepted : ∀ f ∈ files, Accepts (s.db.find? f.name) f → t.db.find? f.name = some f
  refused : ∀ f ∈ files, ¬ Accepts (s.db.find? f.name) f → t.db.find? f.name = s.db.find? f.name
  other : ∀ name, (∀ f ∈ files, f.name ≠ name) → t.db.find? name = s.db.find? name

namespace Judged

/-- The record of another name neither sees the first one nor is seen by it. -/
theorem cons {u : FolderState} (h : IndexEnv.FileProcessed env s f out t)
    (hrest : Judged t u files needed) (hname : ∀ g ∈ files, g.name ≠ f.name) :
    Judged s u (f :: files) (out.toList ++ needed) := by
  have hsame : ∀ g ∈ files, t.db.find? g.name = s.db.find? g.name :=
    fun g hg => h.find?_other (hname g hg)
  have hself : u.db.find? f.name = t.db.find? f.name := hrest.other f.name hname
  have hout : ∀ g, g ∈ out.toList ↔ g = f ∧ Queues (s.db.find? f.name) f := by
    intro g
    rw [Option.mem_toList, ← h.out_eq_some_iff]
    constructor
    · intro hg
      obtain rfl := (h.mem_out hg).1
      exact ⟨rfl, hg⟩
    · rintro ⟨rfl, hg⟩
      exact hg
  constructor
  · intro g
    rw [mem_append, hout, hrest.needed_iff, mem_cons, or_and_right]
    refine or_congr (and_congr_right ?_) (and_congr_right fun hg => by rw [hsame g hg])
    rintro rfl
    rfl
  · intro g hg ha
    rcases mem_cons.mp hg with rfl | hg
    · exact hself.trans (h.find?_of_accepts ha)
    · exact hrest.accepted g hg (by rwa [hsame g hg])
  · intro g hg ha
    rcases mem_cons.mp hg with rfl | hg
    · rw [hself, h.eq_of_not_accepts ha]
    · rw [hrest.refused g hg (by rwa [hsame g hg]), hsame g hg]
  · intro name hother
    rw [hrest.other name fun g hg => hother g (mem_cons_of_mem f hg)]
    exact h.find?_other (hother f mem_cons_self).symm

/-- After the message every record of it is settled. -/
theorem settled (h : Judged s t files needed) : ∀ f ∈ files, ¬ Accepts (t.db.find? f.name) f := by
  intro f hf
  by_cases ha : Accepts (s.db.find? f.name) f
  · rw [h.accepted f hf ha]
    exact not_accepts_self f
  · rwa [h.refused f hf ha]

end Judged

theorem ends_collect_judged (hnodup : (files.map (·.name)).Nodup) :
    Ends (collect env.processFile files) (fun needed t => Judged s t files needed)
      (fun _ => True) s := by
  induction files generalizing s with
  | nil =>
    simp only [collect, ends_pure]
    exact ⟨by simp, by simp, by simp, fun _ _ => rfl⟩
  | cons f files ih =>
    rw [map_cons, nodup_cons] at hnodup
    simp only [collect, ends_bind, ends_pure]
    refine ends_processFile.imp (fun out t ht => ?_) fun _ _ => trivial
    refine (ih hnodup.2).imp (fun needed u hu => ?_) fun _ => id
    exact .cons ht hu fun g hg he => hnodup.1 (he ▸ mem_map_of_mem hg)

theorem judged_of_handled {outcome : IndexOutcome} (hnodup : (files.map (·.name)).Nodup)
    (h : (if full then env.handleIndex files else env.handleIndexUpdate files) s =
      .ok outcome t) : Judged s t files outcome.needed :=
  (ends_handle (ends_collect_judged hnodup) (fun _ _ _ => trivial) trivial).of_ok h

/-! The same message again. -/

section
variable (hfault : ∀ step, env.fault step = none)
include hfault

theorem ends_resolveNeeded_settled (hf : s.db.find? f.name = some r)
    (hwins : isConflict r f = true → remoteWinsConflict r f = false) :
    Ends (env.resolveNeeded r f) (fun _ t => t = s) (fun _ => False) s := by
  have hself : s.db.upsert r = s.db := KeyedList.upsert_self (KeyedList.find?_eq_some_iff.mp hf).1
  simp only [resolveNeeded, resolveConflict, ends_bind, ends_ite, ends_pure,
    Bool.not_eq_true', Bool.not_eq_false]
  refine ⟨fun _ => trivial, fun hc => ⟨fun _ => ?_, fun hw => ?_⟩⟩
  · simp only [updateFile, check, hfault, ends_bind, ends_require, ends_modify]
    exact ⟨fun _ _ => by rw [hself], fun _ he => by cases he⟩
  · rw [hwins hc] at hw
    cases hw

/-- Where nothing fails, a settled record is read and nothing is done. -/
theorem ends_processFile_settled (h : ¬ Accepts (s.db.find? f.name) f) :
    Ends (env.processFile f) (fun _ t => t = s) (fun _ => False) s := by
  unfold processFile
  split
  · simp only [ends_pure]
  next hname =>
    simp only [getFile, check, hfault, ends_bind, ends_require, ends_get, ends_pure]
    refine ⟨fun _ _ => ?_, fun _ he => by cases he⟩
    split
    next r hf =>
      rw [hf, accepts_some_iff] at h
      split
      next hn => exact absurd ⟨hname, .inl hn⟩ h
      · simp only [ends_pure]
      · refine ends_resolveNeeded_settled hfault hf fun hc => ?_
        rw [Bool.eq_false_iff]
        exact fun hw => h ⟨hname, .inr ⟨hc, hw⟩⟩
    next hf =>
      rw [hf] at h
      simp only [ends_ite, ends_bind, ends_pure]
      exact ⟨fun _ => trivial, fun hd => absurd ⟨hname, by simpa using hd⟩ h⟩

section
variable (h : ∀ f ∈ files, ¬ Accepts (s.db.find? f.name) f)
include h

theorem ends_collect_settled :
    Ends (collect env.processFile files) (fun _ t => t = s) (fun _ => False) s := by
  refine ends_collect (fun _ t => t = s) (fun f hf _ u hu => ?_) rfl
  subst hu
  exact ends_processFile_settled hfault (h f hf)

/-- What follows the loop only reads, and does not fail where nothing fails. -/
theorem ends_handle_settled :
    Ends (if full then env.handleIndex files else env.handleIndexUpdate files)
      (fun _ t => t = s) (fun _ => False) s := by
  have hfiles : ∀ {Q : List FileInfo → FolderState → Prop} {u : FolderState},
      Q u.db.entries u → Ends env.getFolderFiles Q (fun _ => False) u := by
    intro Q u hQ
    simp only [getFolderFiles, check, hfault, ends_bind, ends_require, ends_get, ends_pure]
    exact ⟨fun _ _ => hQ, fun _ he => by cases he⟩
  have hprocess : ∀ full, Ends (env.processFiles files full) (fun _ t => t = s)
      (fun _ => False) s := by
    intro full
    simp only [processFiles, ends_bind, ends_pure]
    refine (ends_collect_settled hfault h).imp (fun needed t ht => ?_) fun _ => id
    cases full with
    | false => simpa only [unpushedFiles, ends_pure] using ht
    | true =>
      simp only [unpushedFiles, ends_bind, ends_pure]
      exact hfiles ht
  cases full with
  | false => exact hprocess false
  | true =>
    simp only [if_true, handleIndex, ends_bind]
    exact hfiles (hprocess _)

end

end

/-- A message handled to its end, and handled again at another time, changes nothing more. -/
theorem handled_message_idempotent {env' : IndexEnv} {outcome : IndexOutcome}
    (hnodup : (files.map (·.name)).Nodup) (hfault : ∀ step, env'.fault step = none)
    (hfirst : (if full then env.handleIndex files else env.handleIndexUpdate files) s =
      .ok outcome t) :
    ∃ outcome', (if full then env'.handleIndex files else env'.handleIndexUpdate files) t =
      .ok outcome' t := by
  have hsettled := (judged_of_handled hnodup hfirst).settled
  obtain ⟨outcome', u, hsecond, hu⟩ := (ends_handle_settled hfault hsettled).exists_ok
  exact ⟨outcome', by rw [hsecond, hu]⟩

/-- A record that wins against a concurrent one, received twice. -/
theorem handled_message_idempotent_conflict :
    let s : FolderState := ⟨KeyedList.empty.upsert (editOf 1 7 10), .empty⟩
    ∃ t, Handles calmIndex false [editOf 2 8 20] s t ∧ t.db.find? "x" = some (editOf 2 8 20) ∧
      Handles calmIndex false [editOf 2 8 20] t t := by
  intro s
  have hx : s.db.find? "x" = some (editOf 1 7 10) := by decide
  obtain ⟨t, outcome, hfirst⟩ := exists_handles_calm (s := s) [editOf 2 8 20] rfl
  refine ⟨t, ⟨outcome, hfirst⟩, ?_, handled_message_idempotent (by decide) (fun _ => rfl) hfirst⟩
  rw [Handles.find?_eq_final ⟨outcome, hfirst⟩ (by decide) hx]
  decide

/-! The queue and the records. -/

/-- Every entry of the queue is the stored record, and every live record that has been stored is
queued. -/
structure QueueMatches (s t : FolderState) (needed : List FileInfo) : Prop where
  recorded : ∀ f ∈ needed, t.db.find? f.name = some f
  queued : ∀ f, t.db.find? f.name = some f → s.db.find? f.name ≠ some f → f.isDeleted = false →
    ∃ g ∈ needed, g.name = f.name

/-- A live record has the version of the stored one with another size or time, or it wins against a
concurrent one of a file that is not merged. -/
structure Mismatched (db : FolderFiles) (f : FileInfo) : Prop where
  name : validateRemoteName f.name = .ok ()
  live : f.isDeleted = false
  verdict : ∃ r, db.find? f.name = some r ∧ (needsUpdate r f = .conflict ∧ isConflict r f = false ∨
      isConflict r f = true ∧ remoteWinsConflict r f = true ∧ isMergeableText f.name = false)

/-- Where it is not so, what is stored is queued and nothing else. -/
theorem queues_iff (h : ¬ Mismatched s.db f) :
    Queues (s.db.find? f.name) f ↔ Accepts (s.db.find? f.name) f ∧ f.isDeleted = false := by
  cases hf : s.db.find? f.name with
  | none => simp [Queues, Accepts]
  | some r =>
    rw [accepts_some_iff, Queues, Overrides]
    have hmatch : validateRemoteName f.name = .ok () → f.isDeleted = false →
        ¬ (needsUpdate r f = .conflict ∧ isConflict r f = false ∨
          isConflict r f = true ∧ remoteWinsConflict r f = true ∧ isMergeableText f.name = false) :=
      fun hname hlive hverdict => h ⟨hname, hlive, r, hf, hverdict⟩
    cases hn : needsUpdate r f with
    | update => simp [and_comm]
    | ignore => simp [isConflict_of_ignore hn]
    | conflict =>
      cases hc : isConflict r f <;> cases hw : remoteWinsConflict r f <;>
        cases ht : isMergeableText f.name <;> simp_all

/-- A mismatched record is queued and not stored, or stored and not queued. -/
theorem Mismatched.verdicts (h : Mismatched s.db f) : s.db.find? f.name ≠ some f ∧
    (Queues (s.db.find? f.name) f ∧ ¬ Accepts (s.db.find? f.name) f ∨
      Accepts (s.db.find? f.name) f ∧ ¬ Queues (s.db.find? f.name) f) := by
  obtain ⟨r, hf, hverdict⟩ := h.verdict
  rw [hf, accepts_some_iff, Queues, Overrides]
  have hself : some r ≠ some f := by
    rintro ⟨⟩
    rw [needsUpdate_self, (isConflict_of_ignore (needsUpdate_self f))] at hverdict
    simp at hverdict
  refine ⟨hself, ?_⟩
  rcases hverdict with ⟨hn, hc⟩ | ⟨hc, hw, ht⟩
  · exact .inl ⟨⟨h.name, h.live, .inr ⟨hn, .inl hc⟩⟩, by simp [hn, hc]⟩
  · exact .inr ⟨⟨h.name, .inr ⟨hc, hw⟩⟩, by simp [needsUpdate_of_isConflict hc, hc, ht]⟩

/-- The queue of a call that returns is what the call has stored, unless a record is mismatched. -/
theorem queue_matches_iff {outcome : IndexOutcome} (hnodup : (files.map (·.name)).Nodup)
    (hrun : (if full then env.handleIndex files else env.handleIndexUpdate files) s =
      .ok outcome t) :
    QueueMatches s t outcome.needed ↔ ∀ f ∈ files, ¬ Mismatched s.db f := by
  have hj := judged_of_handled hnodup hrun
  constructor
  · intro hmatch f hf hbad
    obtain ⟨hne, ⟨hq, ha⟩ | ⟨ha, hq⟩⟩ := hbad.verdicts
    · have hrec := hmatch.recorded f ((hj.needed_iff f).mpr ⟨hf, hq⟩)
      rw [hj.refused f hf ha] at hrec
      exact hne hrec
    · obtain ⟨g, hg, hname⟩ := hmatch.queued f (hj.accepted f hf ha) hne hbad.live
      obtain ⟨hgf, hgq⟩ := (hj.needed_iff g).mp hg
      obtain rfl : g = f := inj_on_of_nodup_map hnodup hgf hf hname
      exact hq hgq
  · intro hgood
    constructor
    · intro f hf
      obtain ⟨hfiles, hq⟩ := (hj.needed_iff f).mp hf
      exact hj.accepted f hfiles ((queues_iff (hgood f hfiles)).mp hq).1
    · intro f hrec hne hlive
      by_cases hname : ∀ g ∈ files, g.name ≠ f.name
      · exact absurd ((hj.other f.name hname).symm.trans hrec) hne
      · push Not at hname
        obtain ⟨g, hg, hname⟩ := hname
        by_cases ha : Accepts (s.db.find? g.name) g
        · have hgf := hj.accepted g hg ha
          rw [hname, hrec] at hgf
          cases hgf
          exact ⟨f, (hj.needed_iff f).mpr ⟨hg, (queues_iff (hgood f hg)).mpr ⟨ha, hlive⟩⟩, rfl⟩
        · have hold := hj.refused g hg ha
          rw [hname] at hold
          exact absurd (hold.symm.trans hrec) hne

/-- The version `n` of `y`. -/
def versionOfY (n : UInt64) : FileInfo :=
  { oneByte "y" 2 with version := Vector.new.withCounter 5 n }

/-- A message with a newer record, one that is older than the stored one, and one of a new file. -/
theorem queue_matches_mixed :
    let s : FolderState :=
      ⟨(KeyedList.empty.upsert (peerVersion 1 7)).upsert (versionOfY 2), .empty⟩
    ∃ outcome t, calmIndex.handleIndexUpdate [peerVersion 2 8, versionOfY 1, oneByte "z" 3] s =
        .ok outcome t ∧
      outcome.needed = [peerVersion 2 8, oneByte "z" 3] ∧ QueueMatches s t outcome.needed := by
  intro s
  refine ⟨_, _, rfl, rfl, (@queue_matches_iff calmIndex s _ false
    [peerVersion 2 8, versionOfY 1, oneByte "z" 3] _ (by decide) rfl).mpr ?_⟩
  intro f hf hmismatched
  obtain ⟨r, hr, hverdict⟩ := hmismatched.verdict
  simp only [mem_cons, not_mem_nil, or_false] at hf
  rcases hf with rfl | rfl | rfl
  · obtain rfl : peerVersion 1 7 = r := Option.some.inj hr
    exact absurd hverdict (by decide)
  · obtain rfl : versionOfY 2 = r := Option.some.inj hr
    exact absurd hverdict (by decide)
  · cases hr

/-- The stored version with another time is queued and not stored. A concurrent version that wins
is stored and not queued. -/
theorem queue_mismatches : let s : FolderState := ⟨KeyedList.empty.upsert (editOf 1 7 10), .empty⟩
    (∃ outcome t, calmIndex.handleIndexUpdate [editOf 1 7 20] s = .ok outcome t ∧
      outcome.needed = [editOf 1 7 20] ∧ t.db.find? "x" = some (editOf 1 7 10) ∧
      ¬ QueueMatches s t outcome.needed) ∧
    ∃ outcome t, calmIndex.handleIndexUpdate [editOf 2 8 20] s = .ok outcome t ∧
      outcome.needed = [] ∧ t.db.find? "x" = some (editOf 2 8 20) ∧
      ¬ QueueMatches s t outcome.needed := by
  intro s
  constructor
  · refine ⟨_, _, rfl, rfl, by decide, fun h => ?_⟩
    have hrec := h.recorded (editOf 1 7 20) (by decide)
    revert hrec
    decide
  · refine ⟨_, _, rfl, rfl, by decide, fun h => ?_⟩
    obtain ⟨g, hg, -⟩ := h.queued (editOf 2 8 20) (by decide) (by decide) (by decide)
    cases hg

end Syncthing
