import Syncthing.Sync.PullerFrame
import Syncthing.Sync.Scanner

/-! What a finished download leaves at its target. -/
namespace Syncthing

open List Option Disk PullEnv

variable {env : PullEnv} {st st' : FolderState} {info recorded : FileInfo} {d d' : Disk}
  {path q source : List String} {content : Bytes} {blocks : List BlockInfo} {b : BlockInfo}
  {datas : List Bytes}

/-- An archived version is never the temporary file of a download: its name ends in a stamp. -/
theorem versionPath_ne_tempPathFor (clock : Clock) (t : Int) (p q : List String) :
    versionPath p (clock.formatStamp t) ≠ tempPathFor q := by
  intro heq
  have hlast := congrArg (fun p : List String => (p.getLast?.getD "").toList) heq
  simp only [versionPath, stversionsDir, tempPathFor, getLast?_concat, getD_some,
    String.toList_append] at hlast
  have hstamp : '~' :: (clock.formatStamp t).toList <:+
      (fileNameOrUnknown p).toList ++ "~".toList ++ (clock.formatStamp t).toList :=
    ⟨(fileNameOrUnknown p).toList, by simp⟩
  have htmp : ".tmp".toList <:+
      (fileNameOrUnknown p).toList ++ "~".toList ++ (clock.formatStamp t).toList := by
    rw [hlast]
    exact suffix_append _ _
  rcases suffix_or_suffix_of_suffix hstamp htmp with h | h
  · have hmem : '~' ∈ ".tmp".toList := h.subset mem_cons_self
    simp at hmem
  · rcases suffix_cons_iff.mp h with h | h
    · simp at h
    · have htail := clock.stamp_tail t
      simp only [Text.endsWith, isSuffixOf_iff_suffix.mpr h] at htail
      cases htail

/-- Archiving touches nothing but the archive of the file. -/
theorem nodeAt_archiveExisting (hq : (d.nodeAt q).isSome)
    (hne : ∀ t, versionPath path (env.clock.formatStamp t) ≠ q) :
    (env.archiveExisting d path).nodeAt q = d.nodeAt q := by
  refine archiveExisting_induction (P := (nodeAt · q = d.nodeAt q)) rfl fun hstep ih => ?_
  rw [← ih]
  cases hstep with
  | createDir h => exact nodeAt_createDirAll h (by rwa [ih])
  | write h => exact nodeAt_write h (hne _).symm
  | remove h => exact nodeAt_removeFile h (hne _).symm

theorem Cleared.nodeAt (h : Cleared path d d') (hq : q ≠ path) : d'.nodeAt q = d.nodeAt q := by
  unfold Disk.nodeAt
  rw [h.others q hq]

/-- Once the target is cleared, a rename puts the temporary file in place. -/
theorem Cleared.nodeAt_rename {d'' : Disk} {temp : List String} (hc : Cleared path d d')
    (ht : temp ≠ []) (hp : path ≠ []) (hne : temp ≠ path) (h : d'.rename temp path = .ok d'') :
    d''.nodeAt path = d.nodeAt temp := by
  rw [Disk.nodeAt_rename h ht hp, hc.nodeAt hne]

namespace PullEnv

theorem read?_install (h : env.install st info recorded = (.ok, st')) :
    st'.disk.read? (namePath info.name) = st.disk.read? (tempPathFor (namePath info.name)) := by
  have hp := namePath_ne_nil info.name
  cases installed_of_eq h with
  | done d d1 d2 hc hr hd =>
    have hmoved := hc.nodeAt_rename (tempPathFor_ne_nil _) hp (tempPathFor_ne hp) hr
    rcases hd with rfl | ⟨modified, rfl⟩
    · exact read?_congr hmoved
    · rw [read?_setMtime]
      exact read?_congr hmoved

/-- Archiving the old file first does not touch the temporary one. -/
theorem read?_install_archived {db : FolderFiles}
    (hsome : (d.nodeAt (tempPathFor (namePath info.name))).isSome)
    (h : env.install ⟨db, env.archiveExisting d (namePath info.name)⟩ info recorded = (.ok, st')) :
    st'.disk.read? (namePath info.name) = d.read? (tempPathFor (namePath info.name)) := by
  rw [read?_install h]
  exact read?_congr (nodeAt_archiveExisting hsome fun t => versionPath_ne_tempPathFor _ t _ _)

theorem isSome_nodeAt_of_read? (h : d.read? q = some content) : (d.nodeAt q).isSome := by
  unfold read? at h
  cases hn : d.nodeAt q with
  | none => simp [hn] at h
  | some n => rfl

/-- A local copy puts the content of the source at the target. -/
theorem read?_copyFromLocal (hsource : st.disk.read? source = some content)
    (h : env.copyFromLocal st info source = (.ok, st')) : st'.disk.read? (namePath info.name) =
      some (if source = tempPathFor (namePath info.name) then [] else content) := by
  unfold copyFromLocal at h
  simp only at h
  split at h
  · cases h
  next d1 h1 =>
    split at h
    · cases h
    next d2 h2 =>
      have hread : d1.read? source = some content := by
        rw [← hsource]
        exact read?_congr (nodeAt_createDirAll (orFault_eq_ok.mp h1).2
          (isSome_nodeAt_of_read? hsource))
      have h2 := (orFault_eq_ok.mp h2).2
      simp only [copy, hread] at h2
      have htemp := read?_write h2 (tempPathFor_ne_nil _)
      rw [read?_install_archived (isSome_nodeAt_of_read? htemp) h, htemp]

/-- A download without a merge puts the received blocks at the target. -/
theorem read?_downloadBlocks {r : Downloaded} (h : env.downloadBlocks st info = some r)
    (hok : r.result = .ok) (hm : r.merged = false) :
    ∃ written, env.fetchBlocks info.name info.blocks 0 [] = (.ok (), written) ∧
      r.state.disk.read? (namePath info.name) = some written := by
  unfold downloadBlocks at h
  simp only at h
  split at h
  · cases h
    cases hok
  next d1 h1 =>
    split at h
    · cases h
      cases hok
    next d2 h2 =>
      split at h
      · cases h
        cases hok
      next hfetch =>
        split at h
        · cases h
          cases hok
        · cases h
          cases hok
        · refine ⟨_, Prod.ext hfetch rfl, ?_⟩
          have htemp := read?_overwrite d2 (env.fetchBlocks info.name info.blocks 0 []).2
            env.clock.now (tempPathFor_ne_nil (namePath info.name))
          unfold finishDownload at h
          simp only at h
          split at h
          · cases h
            rw [read?_install_archived (isSome_nodeAt_of_read? htemp) (Prod.ext hok rfl), htemp]
          · obtain ⟨merged, -, h⟩ := bind_eq_some_iff.mp h
            cases h
            cases hm

end PullEnv

/-- The blocks follow one another from `offset` to `size`. -/
def Tiles : List BlockInfo → Int → Int → Prop
  | [], offset, size => offset = size
  | b :: blocks, offset, size =>
    b.offset = offset ∧ 0 ≤ b.size ∧ Tiles blocks (offset + b.size) size

instance decidableTiles : (blocks : List BlockInfo) → (offset size : Int) →
    Decidable (Tiles blocks offset size)
  | [], offset, size => inferInstanceAs (Decidable (offset = size))
  | b :: blocks, offset, size =>
    have := decidableTiles blocks (offset + b.size) size
    inferInstanceAs (Decidable (b.offset = offset ∧ 0 ≤ b.size ∧
      Tiles blocks (offset + b.size) size))

/-- The bytes of a content that a block covers, if it lies inside. -/
def cutBlock (content : Bytes) (b : BlockInfo) : Option Bytes :=
  if 0 ≤ b.offset ∧ 0 ≤ b.size ∧ b.offset + b.size ≤ content.length then
    some ((content.drop b.offset.toNat).take b.size.toNat)
  else none

/-- The content is the one the record announces: as long as it says, and every block of it
hashes to the block hash. -/
structure Announced (sha256 : Bytes → Bytes) (info : FileInfo) (content : Bytes) : Prop where
  tiles : Tiles info.blocks 0 info.size
  length : (content.length : Int) = info.size
  hashes : ∀ b ∈ info.blocks, ∃ data, cutBlock content b = some data ∧ sha256 data = b.hash

/-- Every block answered by the peer has the size its record gives. -/
def SizedResponses (env : PullEnv) (blocks : List BlockInfo) : Prop :=
  ∀ source ∈ env.blockSource, ∀ b ∈ blocks.zipIdx, ∀ data, source b.1 b.2 = .ok data →
    (data.length : Int) = b.1.size

/-- The state a download starts in and the answers it gets lead to the announced content. -/
def ContentGuard (env : PullEnv) (st : FolderState) (info : FileInfo) : Prop :=
  match env.findLocalCopySource st info with
  | .ok (some source) => ∃ content, st.disk.read? source = some content ∧
      Announced env.sha256 info (if source = tempPathFor (namePath info.name) then [] else content)
  | _ => Tiles info.blocks 0 info.size ∧ SizedResponses env info.blocks

/-- What the peer answered, block by block, when all of it was accepted. -/
theorem PullEnv.fetchBlocks_ok {name : String} {i : Nat} {acc written : Bytes}
    (h : env.fetchBlocks name blocks i acc = (.ok (), written)) :
    ∃ datas : List Bytes, written = acc ++ datas.flatten ∧
      List.Forall₂ (fun b data => env.sha256 data = b.hash) blocks datas ∧
      List.Forall₂ (fun b data => ∃ source ∈ env.blockSource, source b.1 b.2 = .ok data)
        (blocks.zipIdx i) datas := by
  induction blocks generalizing i acc with
  | nil =>
    cases h
    exact ⟨[], by simp, .nil, .nil⟩
  | cons b blocks ih =>
    unfold fetchBlocks at h
    split at h
    · cases h
    next source hsource =>
      split at h
      · cases h
      next data hdata =>
        split at h
        · cases h
        next hhash =>
          split at h
          · cases h
          · obtain ⟨datas, rfl, hhashes, hresp⟩ := ih h
            exact ⟨data :: datas, by simp, .cons (not_not.mp hhash) hhashes,
              .cons ⟨source, hsource, hdata⟩ hresp⟩

/-- The sizes of the accepted blocks are those of the answers. -/
theorem sizes_iff {i : Nat}
    (h : List.Forall₂ (fun b data => ∃ source ∈ env.blockSource, source b.1 b.2 = .ok data)
      (blocks.zipIdx i) datas) :
    List.Forall₂ (fun b data => ((data : Bytes).length : Int) = b.size) blocks datas ↔
      ∀ source ∈ env.blockSource, ∀ b ∈ blocks.zipIdx i, ∀ data, source b.1 b.2 = .ok data →
        (data.length : Int) = b.1.size := by
  induction blocks generalizing i datas with
  | nil =>
    cases h
    simp
  | cons b blocks ih =>
    rw [zipIdx_cons] at h
    cases h with
    | cons hd htl =>
      obtain ⟨source, hsource, hdata⟩ := hd
      rw [forall₂_cons, ih htl, zipIdx_cons]
      constructor
      · rintro ⟨hlen, hrest⟩ source' hsource' p hp data hd'
        obtain rfl : source = source' := some.inj (hsource.symm.trans hsource')
        rcases mem_cons.mp hp with rfl | hp
        · obtain rfl := Except.ok.inj (hdata.symm.trans hd')
          exact hlen
        · exact hrest source hsource p hp data hd'
      · intro hall
        refine ⟨hall source hsource _ mem_cons_self _ hdata, ?_⟩
        exact fun source' hsource' p hp => hall source' hsource' p (mem_cons_of_mem _ hp)

theorem sum_length_of_forall₂ {offset size : Int} (ht : Tiles blocks offset size)
    (hlen : List.Forall₂ (fun b data => ((data : Bytes).length : Int) = b.size) blocks datas) :
    offset + (datas.flatten.length : Int) = size := by
  induction hlen generalizing offset with
  | nil => simpa [Tiles] using ht
  | cons h _ ih =>
    obtain ⟨-, -, ht⟩ := ht
    have := ih ht
    simp only [flatten_cons, length_append]
    omega

/-- Blocks of the right sizes, one after the other, are cut out again at their offsets. -/
theorem cutBlock_flatten {size : Int} (before : Bytes) (ht : Tiles blocks before.length size)
    (hlen : List.Forall₂ (fun b data => ((data : Bytes).length : Int) = b.size) blocks datas) :
    List.Forall₂ (fun b data => cutBlock (before ++ datas.flatten) b = some data) blocks datas := by
  induction hlen generalizing before with
  | nil => exact .nil
  | @cons b data blocks datas h hlen ih =>
    obtain ⟨hoff, hnn, ht⟩ := ht
    refine .cons ?_ ?_
    · rw [cutBlock, if_pos]
      · have h1 : b.offset.toNat = before.length := by omega
        have h2 : b.size.toNat = data.length := by omega
        simp [h1, h2]
      · refine ⟨by omega, hnn, ?_⟩
        simp only [flatten_cons, length_append]
        omega
    · have hlen' : ((before ++ data).length : Int) = before.length + b.size := by
        simp only [length_append]
        omega
      have := ih (before ++ data) (by rwa [hlen'])
      simpa using this

theorem length_of_cutBlock {data : Bytes} (h : cutBlock content b = some data) :
    (data.length : Int) = b.size := by
  unfold cutBlock at h
  split at h
  · cases h
    simp only [length_take, length_drop]
    omega
  · cases h

/-- Received blocks are the announced content exactly if they tile it and each has the size
of its record. -/
theorem announced_flatten_iff (hinj : Function.Injective env.sha256)
    (hhash : List.Forall₂ (fun b data => env.sha256 data = b.hash) info.blocks datas) :
    Announced env.sha256 info datas.flatten ↔ Tiles info.blocks 0 info.size ∧
      List.Forall₂ (fun b data => ((data : Bytes).length : Int) = b.size) info.blocks datas := by
  constructor
  · intro h
    refine ⟨h.tiles, ((forall₂_and_left _ _).mpr ⟨h.hashes, hhash⟩).imp ?_⟩
    rintro b data ⟨⟨cut, hcut, hsha⟩, hdata⟩
    obtain rfl := hinj (hsha.trans hdata.symm)
    exact length_of_cutBlock hcut
  · rintro ⟨ht, hlen⟩
    have hcut := cutBlock_flatten [] ht hlen
    refine ⟨ht, by simpa using sum_length_of_forall₂ ht hlen, ?_⟩
    refine ((forall₂_and_left (R := fun _ _ => True) _ datas).mp ?_).1
    refine List.Forall₂.mp (fun b data hc hs => ?_) hcut hhash
    exact ⟨⟨data, hc, hs⟩, trivial⟩

/-- The local copy source is a readable file. -/
theorem PullEnv.read?_findLocalCopySource
    (h : env.findLocalCopySource st info = .ok (some source)) :
    ∃ content, st.disk.read? source = some content := by
  unfold findLocalCopySource at h
  split at h
  · cases h
  · split at h
    · cases h
    · obtain ⟨f, hf, rfl⟩ := map_eq_some_iff.mp (Except.ok.inj h)
      have hfile := find?_some hf
      simp only [Bool.and_eq_true] at hfile
      have hfile := hfile.2
      unfold isFile at hfile
      unfold read?
      split at hfile
      · exact ⟨_, rfl⟩
      · exact ⟨_, rfl⟩
      · cases hfile

/-- A download that returns without a merge leaves the announced content exactly if the state it
started in and the answers it got allowed for it. -/
theorem downloadFile_announced_iff {r : PullEnv.Downloaded} (hinj : Function.Injective env.sha256)
    (h : env.downloadFile st info = some r) (hok : r.result = .ok) (hm : r.merged = false) :
    (∃ content, r.state.disk.read? (namePath info.name) = some content ∧
      Announced env.sha256 info content) ↔ ContentGuard env st info := by
  unfold downloadFile at h
  split at h
  · cases h
    cases hok
  · split at h
    · cases h
      cases hok
    next source hsource =>
      obtain ⟨found, hfound⟩ := read?_findLocalCopySource hsource
      obtain rfl : r = ⟨_, (env.copyFromLocal st info source).2, false⟩ := (some.inj h).symm
      have hread := read?_copyFromLocal hfound (Prod.ext hok rfl)
      simp [ContentGuard, hsource, hfound, hread]
    next hnone =>
      obtain ⟨written, hfetch, hread⟩ := read?_downloadBlocks h hok hm
      obtain ⟨datas, rfl, hhash, hresp⟩ := fetchBlocks_ok hfetch
      simp only [hread, ContentGuard, hnone, some.injEq, exists_eq_left', nil_append]
      rw [announced_flatten_iff hinj hhash, sizes_iff hresp]
      rfl

/-- Nothing fails, the clock stands still, the peer is honest, and a block is its own hash. -/
def calmEnv : PullEnv where
  folderPath := "/folder"
  sha256 := id
  clock := {
    now := (100, 0)
    formatStamp := fun _ => "19700101-000140"
    formatLocalStamp := fun _ => "19700101-000140"
    parseStamp := fun _ => some 100
    formatDate := fun _ => "19700101"
    formatTime := fun _ => "000140"
    parseDate := fun _ => some 0
    stamp_tail := fun _ => by decide }
  fault := fun _ => none
  blockSource := some fun b _ => .ok b.hash
  fromUtf8 := fun _ => none
  asBytes := fun _ => []
  textDiff := fun _ _ => []
  mergeFuel := 0
  versioner := none

/-- A record of one byte, and its hash. -/
def oneByte (name : String) (byte : UInt8) : FileInfo :=
  { FileInfo.new name with size := 1, blocks := [⟨1, [byte], 0⟩] }

theorem downloadFile_fetches_announced : ContentGuard calmEnv ⟨.empty, .empty⟩ (oneByte "new" 7) ∧
    ∃ r, calmEnv.downloadFile ⟨.empty, .empty⟩ (oneByte "new" 7) = some r ∧
      ∃ content, r.state.disk.read? (namePath "new") = some content ∧
        Announced calmEnv.sha256 (oneByte "new" 7) content := by
  have hguard : ContentGuard calmEnv ⟨.empty, .empty⟩ (oneByte "new" 7) := by
    refine ⟨by decide, ?_⟩
    rintro source ⟨⟩ b hb data ⟨⟩
    obtain rfl : b = (⟨1, [7], 0⟩, 0) := by simpa [oneByte] using hb
    rfl
  refine ⟨hguard, _, rfl, ?_⟩
  exact (downloadFile_announced_iff (fun _ _ h => h) rfl (by decide) (by decide)).mpr hguard

/-- The record of `old` is what `new` should hold, but the file `old` has been edited since: the
edited content becomes `new`. And a record without blocks is taken at any size. -/
theorem downloadFile_accepts_other_content :
    Tiles (oneByte "new" 7).blocks 0 (oneByte "new" 7).size ∧
    ((calmEnv.downloadFile ⟨KeyedList.empty.upsert (oneByte "old" 7),
        FileStore.empty.set ["old"] (.file [9] (0, 0))⟩ (oneByte "new" 7)).map fun r =>
      (r.result, r.merged, r.state.disk.read? (namePath "new"))) = some (.ok, false, some [9]) ∧
    ¬ Announced calmEnv.sha256 (oneByte "new" 7) [9] ∧
    ((calmEnv.downloadFile ⟨.empty, .empty⟩ { FileInfo.new "new" with size := 5 }).map fun r =>
      (r.result, r.merged, r.state.disk.read? (namePath "new"))) = some (.ok, false, some []) ∧
    ¬ Announced calmEnv.sha256 { FileInfo.new "new" with size := 5 } [] := by
  refine ⟨by decide, by decide, fun h => ?_, by decide, fun h => ?_⟩
  · obtain ⟨data, hcut, hsha⟩ := h.hashes ⟨1, [7], 0⟩ (by decide)
    cases hcut
    revert hsha
    decide
  · have := h.length
    revert this
    decide

section scanned
variable (sha256 : Bytes → Bytes) (name : String) (modified : Mtime)

def scannedBlock (content : Bytes) (i : Nat) : BlockInfo :=
  let data := (content.drop (i * defaultBlockSize)).take defaultBlockSize
  ⟨data.length, sha256 data, (i * defaultBlockSize : Nat)⟩

theorem tiles_scannedBlock {i n : Nat} (h : (content.length + 131071) / 131072 = i + n) :
    Tiles ((range' i n).map (scannedBlock sha256 content))
      (min (i * 131072) content.length : Nat) content.length := by
  induction n generalizing i with
  | zero =>
    simp only [range'_zero, map_nil, Tiles]
    omega
  | succ n ih =>
    refine ⟨?_, Int.natCast_nonneg _, ?_⟩
    · simp only [scannedBlock, defaultBlockSize]
      omega
    · convert @ih (i + 1) (by omega) using 1
      simp only [scannedBlock, defaultBlockSize, length_take, length_drop]
      omega

/-- What a scan records of a content announces this content. -/
theorem scanned_record_announces (content : Bytes) :
    Announced sha256 (contentInfo sha256 name content modified) content := by
  by_cases hempty : content = []
  · subst hempty
    exact ⟨⟨rfl, le_rfl, rfl⟩, rfl, by simp [contentInfo, contentBlocks, cutBlock]⟩
  have hblocks : (contentInfo sha256 name content modified).blocks = (range' 0
      ((content.length + 131071) / 131072)).map (scannedBlock sha256 content) := by
    simp [contentInfo, contentBlocks, hempty, defaultBlockSize, range_eq_range', scannedBlock]
  refine ⟨?_, rfl, fun b hb => ?_⟩
  · rw [hblocks]
    simpa [contentInfo] using tiles_scannedBlock sha256 (Nat.zero_add _).symm
  · rw [hblocks] at hb
    obtain ⟨i, hi, rfl⟩ := mem_map.mp hb
    have hlt := (mem_range'_1.mp hi).2
    refine ⟨(content.drop (i * defaultBlockSize)).take defaultBlockSize, ?_, rfl⟩
    rw [cutBlock, if_pos]
    · simp only [scannedBlock, Int.toNat_natCast, length_take, ← take_eq_take_min]
    · simp only [scannedBlock, defaultBlockSize, length_take, length_drop]
      omega

end scanned

end Syncthing
