import Syncthing.Lib.Transition
import Syncthing.Net.Messages
import Syncthing.Sync.Disk
import Mathlib.Algebra.Group.Nat.Defs

/-! `ManagerBlockSource` of `main.rs` and the sessions in `session/state.rs` share one map from
request ids to the channels of the requests that wait. Requesting tasks and sessions take turns in
any order. -/
namespace Syncthing

/-- A `Response` as it is decoded: its code may be any number. -/
structure RawResponse where
  id : Int
  data : Bytes
  code : Int
  deriving DecidableEq

def noErrorCode : Int := 0

def genericCode : Int := 1

/-- Who puts a response into the channel of a request: a session that has received it, or one that
clears the map when it ends. -/
inductive Origin where
  | session (device : DeviceId)
  | cleanup (device : DeviceId)
  deriving DecidableEq

/-- How a request comes to its end. -/
inductive Ending where
  | notConnected
  | sendFailed (error : String)
  | timeout
  | closed
  | answered (response : RawResponse) (origin : Origin)
  deriving DecidableEq

structure BlockRequest where
  device : DeviceId
  file : String
  size : Int
  id : Int
  sent : Bool
  /-- What waits in the channel of the request. -/
  channel : Option (RawResponse × Origin)
  ending : Option Ending
  deriving DecidableEq

/-- The result of `try_request_block_from_device`. Devices are shown as `display` has it. -/
def BlockRequest.result (display : DeviceId → String) (r : BlockRequest) :
    Option (Except SyncError Bytes) :=
  r.ending.map fun
    | .notConnected =>
      .error (.pull r.file ("Connection to " ++ display r.device ++ " not available"))
    | .sendFailed e =>
      .error (.pull r.file ("send request to " ++ display r.device ++ " failed: " ++ e))
    | .timeout => .error (.pull r.file ("response timeout from " ++ display r.device))
    | .closed => .error (.pull r.file ("response channel closed for " ++ display r.device))
    | .answered response _ =>
      if response.code ≠ noErrorCode then
        .error (.pull r.file ("remote error code " ++ toString response.code ++ " from " ++
          display r.device))
      else if (response.data.length : Int) ≠ r.size then
        .error (.pull r.file ("block size mismatch from " ++ display r.device ++ ": expected " ++
          toString r.size ++ " got " ++ toString response.data.length))
      else .ok response.data

/-- The source with the requests made so far. A session that has taken a channel out of the map
carries it until it sends. -/
structure BlockSource where
  nextId : Int
  pendingResponses : Int → Option Nat
  requests : Nat → Option BlockRequest
  made : Nat
  carried : List (Nat × RawResponse × Origin)

inductive BlockTurn where
  | request (device : DeviceId) (file : String) (size : Int) (connected : Bool)
  | sent (token : Nat)
  | sendFailed (token : Nat) (error : String)
  | receive (token : Nat)
  | timeout (token : Nat)
  | closed (token : Nat)
  /-- A session with a device receives a `Response`. -/
  | response (device : DeviceId) (response : RawResponse)
  /-- A session with a device has ended and takes an entry out of the map. How far it gets is left
  to the map: its iterator holds the lock of the shard of the entry. -/
  | cleanup (device : DeviceId) (id : Int)
  /-- A session sends what it carries. -/
  | hand (index : Nat)

namespace BlockSource

def new : BlockSource := ⟨1, fun _ => none, fun _ => none, 0, []⟩

variable (s : BlockSource) (token : Nat) (r : BlockRequest)

def put : BlockSource := { s with requests := fun t => if t = token then some r else s.requests t }

/-- The request gets the next id and an entry under it, in place of one that is there already. -/
def request (device : DeviceId) (file : String) (size : Int) (connected : Bool) : BlockSource :=
  let r : BlockRequest :=
    ⟨device, file, size, s.nextId, false, none, if connected then none else some .notConnected⟩
  { s.put s.made r with
    nextId := Int.bmod (s.nextId + 1) (2 ^ 32)
    pendingResponses := fun id =>
      if connected ∧ id = s.nextId then some s.made else s.pendingResponses id
    made := s.made + 1 }

/-- What a task does about its own request, if it may. -/
def act (ready : BlockRequest → Bool) (f : BlockRequest → BlockRequest) : Option BlockSource :=
  match s.requests token with
  | some r => if ready r then some (s.put token (f r)) else none
  | none => none

/-- `pending_responses.remove(&id)`. A response that nothing waits for is dropped. -/
def take (id : Int) (response : RawResponse) (origin : Origin) : BlockSource :=
  match s.pendingResponses id with
  | none => s
  | some token =>
    { s with
      pendingResponses := fun i => if i = id then none else s.pendingResponses i
      carried := s.carried ++ [(token, response, origin)] }

/-- Somebody can still send to the request. -/
def hasSender : Bool := s.pendingResponses r.id = some token || s.carried.any (·.1 = token)

/-- The request waits for its channel, in which there is nothing. -/
def waits : Bool := r.ending.isNone && r.sent && r.channel.isNone

def turn : BlockTurn → Option BlockSource
  | .request device file size connected => some (s.request device file size connected)
  | .sent token =>
    s.act token (fun r => r.ending.isNone && !r.sent) fun r => { r with sent := true }
  | .sendFailed token error =>
    s.act token (fun r => r.ending.isNone && !r.sent) fun r =>
      { r with ending := some (.sendFailed error) }
  | .receive token =>
    s.act token (fun r => r.ending.isNone && r.sent && r.channel.isSome) fun r =>
      { r with ending := r.channel.map fun c => .answered c.1 c.2 }
  | .timeout token =>
    s.act token (fun r => waits r && s.hasSender token r) fun r =>
      { r with ending := some .timeout }
  | .closed token =>
    s.act token (fun r => waits r && !s.hasSender token r) fun r =>
      { r with ending := some .closed }
  | .response device response => some (s.take response.id response (.session device))
  | .cleanup device id => some (s.take id ⟨id, [], genericCode⟩ (.cleanup device))
  | .hand index =>
    match s.carried[index]? with
    | none => none
    | some (token, response, origin) =>
      { s with carried := s.carried.eraseIdx index }.act token (fun _ => true) fun r =>
        if r.ending.isNone then { r with channel := some (response, origin) } else r

def run (turns : List BlockTurn) : Option BlockSource := turns.foldlM turn s

def Step (s : BlockSource) (a : BlockTurn) (t : BlockSource) : Prop := s.turn a = some t

/-- Every request gets its own answer, and leaves nothing behind when it fails. -/
structure OwnAnswers (display : DeviceId → String) (s : BlockSource) : Prop where
  data : ∀ {token r data}, s.requests token = some r → r.result display = some (.ok data) →
    ∃ response, r.ending = some (.answered response (.session r.device)) ∧
      response.id = r.id ∧ response.data = data
  ended : ∀ {token r response device}, s.requests token = some r →
    r.ending = some (.answered response (.cleanup device)) → r.device = device
  entry : ∀ {id token r e}, s.pendingResponses id = some token → s.requests token = some r →
    r.result display ≠ some (.error e)

/-- A response that answers a request comes from the device that was asked, a session that ends
takes out requests to its own device, and no request fails to be sent or times out while it has an
entry. -/
def Proper (s : BlockSource) : BlockTurn → Prop
  | .response device response => ∀ token r, s.pendingResponses response.id = some token →
      s.requests token = some r → response.code = noErrorCode →
      (response.data.length : Int) = r.size → r.device = device
  | .cleanup device id => ∀ token r, s.pendingResponses id = some token →
      s.requests token = some r → r.device = device
  | .sendFailed token _ | .timeout token =>
      ∀ r, s.requests token = some r → s.pendingResponses r.id ≠ some token
  | _ => True

/-- A response that a request may get: under its id, and either from a session with its device, or
of no use to it. -/
def Suits (c : RawResponse × Origin) : Prop := c.1.id = r.id ∧ match c.2 with
    | .session device =>
      c.1.code = noErrorCode → (c.1.data.length : Int) = r.size → r.device = device
    | .cleanup device => r.device = device ∧ c.1.code ≠ noErrorCode

/-- What holds along proper runs: a request has one of an entry, a response on its way and a
response in its channel. -/
structure Inv (s : BlockSource) : Prop where
  made : ∀ {token r}, s.requests token = some r → token < s.made
  entry : ∀ {id token}, s.pendingResponses id = some token →
    ∃ r, s.requests token = some r ∧ r.id = id ∧ r.channel = none ∧ r.ending = none
  carried : ∀ {token c}, (token, c) ∈ s.carried →
    ∃ r, s.requests token = some r ∧ Suits r c ∧ s.pendingResponses r.id ≠ some token
  channel : ∀ {token r c}, s.requests token = some r → r.channel = some c → Suits r c
  ending : ∀ {token r response origin}, s.requests token = some r →
    r.ending = some (.answered response origin) → Suits r (response, origin)

variable {s} {t : BlockSource} {token : Nat} {r r' : BlockRequest} {id : Int} {device : DeviceId}
  {response : RawResponse} {origin : Origin} {display : DeviceId → String}

theorem act_eq_some {ready : BlockRequest → Bool} {f : BlockRequest → BlockRequest}
    (h : s.act token ready f = some t) :
    ∃ r, s.requests token = some r ∧ ready r = true ∧ t = s.put token (f r) := by
  unfold act at h
  split at h
  next r hr =>
    split at h
    next hready => exact ⟨r, hr, hready, (Option.some.inj h).symm⟩
    · cases h
  · cases h

theorem requests_put {i : Nat} : (s.put token r).requests i =
    if i = token then some r else s.requests i := rfl

/-- Only a response without an error and of the right length gives data. -/
theorem result_eq_ok {data : Bytes} (h : r.result display = some (.ok data)) :
    ∃ response origin, r.ending = some (.answered response origin) ∧
      response.code = noErrorCode ∧ (response.data.length : Int) = r.size ∧
      response.data = data := by
  obtain ⟨ending, hending, hok⟩ := Option.map_eq_some_iff.mp h
  cases ending with
  | answered response origin =>
    simp only at hok
    split at hok
    · cases hok
    next hcode =>
      split at hok
      · cases hok
      next hlength =>
        exact ⟨response, origin, hending, not_not.mp hcode, not_not.mp hlength, Except.ok.inj hok⟩
  | notConnected | sendFailed _ | timeout | closed => cases hok

namespace Inv

theorem new : Inv .new where
  made h := by cases h
  entry h := by cases h
  carried h := by cases h
  channel h := by cases h
  ending h := by cases h

section
variable (h : Inv s)
include h

/-- A request changes, but not in what it asks for. -/
theorem put (hr : s.requests token = some r)
    (hsame : r'.device = r.device ∧ r'.size = r.size ∧ r'.id = r.id)
    (hentry : s.pendingResponses r.id = some token → r'.channel = none ∧ r'.ending = none)
    (hchannel : ∀ c, r'.channel = some c → Suits r c)
    (hending : ∀ response origin, r'.ending = some (.answered response origin) →
      Suits r (response, origin)) : Inv (s.put token r') := by
  obtain ⟨hdevice, hsize, hid⟩ := hsame
  have hsuits : ∀ {c}, Suits r c → Suits r' c := by
    intro c hc
    unfold Suits at hc ⊢
    rw [hdevice, hsize, hid]
    exact hc
  refine ⟨fun {i ri} hri => ?_, fun {id i} hpending => ?_, fun {i c} hcarried => ?_,
    fun {i ri c} hri hc => ?_, fun {i ri resp o} hri hresp => ?_⟩
  · rw [requests_put] at hri
    split at hri
    next hi =>
      subst hi
      exact h.made hr
    · exact h.made hri
  · obtain ⟨ri, hri, hidi, hnone⟩ := h.entry hpending
    rw [requests_put]
    split
    next hi =>
      subst hi
      rw [hr] at hri
      cases hri
      exact ⟨r', rfl, hid.trans hidi, hentry (hidi ▸ hpending)⟩
    · exact ⟨ri, hri, hidi, hnone⟩
  · obtain ⟨ri, hri, hsuit, hnot⟩ := h.carried hcarried
    rw [requests_put]
    split
    next hi =>
      subst hi
      rw [hr] at hri
      cases hri
      exact ⟨r', rfl, hsuits hsuit, hid ▸ hnot⟩
    · exact ⟨ri, hri, hsuit, hnot⟩
  · rw [requests_put] at hri
    split at hri
    · cases hri
      exact hsuits (hchannel c hc)
    · exact h.channel hri hc
  · rw [requests_put] at hri
    split at hri
    · cases hri
      exact hsuits (hending resp o hresp)
    · exact h.ending hri hresp

theorem request (device : DeviceId) (file : String) (size : Int) (connected : Bool) :
    Inv (s.request device file size connected) := by
  -- The token is new, so nothing refers to it yet.
  have hnew : ∀ {i r}, s.requests i = some r → i ≠ s.made := fun hr => Nat.ne_of_lt (h.made hr)
  refine ⟨fun {i ri} hri => ?_, fun {id i} hpending => ?_, fun {i c} hcarried => ?_,
    fun {i ri c} hri hc => ?_, fun {i ri resp o} hri hresp => ?_⟩
  · simp only [BlockSource.request, requests_put] at hri ⊢
    split at hri
    · omega
    · exact Nat.lt_succ_of_lt (h.made hri)
  · simp only [BlockSource.request, requests_put] at hpending ⊢
    split at hpending
    next hboth =>
      cases hpending
      exact ⟨_, if_pos rfl, hboth.2.symm, rfl, if_pos hboth.1⟩
    · obtain ⟨ri, hri, hrest⟩ := h.entry hpending
      exact ⟨ri, by rw [if_neg (hnew hri), hri], hrest⟩
  · obtain ⟨ri, hri, hsuit, hnot⟩ := h.carried hcarried
    simp only [BlockSource.request, requests_put]
    refine ⟨ri, by rw [if_neg (hnew hri), hri], hsuit, ?_⟩
    split
    · intro heq
      exact hnew hri (Option.some.inj heq).symm
    · exact hnot
  · simp only [BlockSource.request, requests_put] at hri
    split at hri
    · cases hri
      cases hc
    · exact h.channel hri hc
  · simp only [BlockSource.request, requests_put] at hri
    split at hri
    · cases hri
      simp only at hresp
      split at hresp <;> cases hresp
    · exact h.ending hri hresp

theorem take (hsuits : ∀ token r, s.pendingResponses id = some token →
    s.requests token = some r → r.id = id → Suits r (response, origin)) :
    Inv (s.take id response origin) := by
  unfold BlockSource.take
  split
  · exact h
  next token htoken =>
    obtain ⟨r, hr, hid, -⟩ := h.entry htoken
    refine ⟨h.made, fun {i t} hpending => ?_, fun {t c} hcarried => ?_, h.channel, h.ending⟩
    · simp only at hpending
      split at hpending
      · cases hpending
      · exact h.entry hpending
    · rcases List.mem_append.mp hcarried with hcarried | hcarried
      · obtain ⟨ri, hri, hsuit, hnot⟩ := h.carried hcarried
        refine ⟨ri, hri, hsuit, ?_⟩
        simp only
        split
        · exact fun heq => (nomatch heq)
        · exact hnot
      · cases List.mem_singleton.mp hcarried
        exact ⟨r, hr, hsuits token r htoken hr hid, by simp [hid]⟩

theorem hand {index : Nat} (hturn : s.turn (.hand index) = some t) : Inv t := by
  simp only [turn] at hturn
  split at hturn
  · cases hturn
  next token response origin hcarried =>
    have hmem := List.mem_of_getElem? hcarried
    obtain ⟨r, hr, hsuits, hnot⟩ := h.carried hmem
    have herased : Inv { s with carried := s.carried.eraseIdx index } :=
      ⟨h.made, h.entry, fun hc => h.carried (List.mem_of_mem_eraseIdx hc), h.channel, h.ending⟩
    obtain ⟨r₁, hr₁, -, rfl⟩ := act_eq_some hturn
    rw [show s.requests token = some r₁ from hr₁] at hr
    cases hr
    refine herased.put hr₁ ?_ (fun hentry => absurd hentry hnot) (fun c hc => ?_)
      (fun resp o hresp => ?_)
    · split <;> exact ⟨rfl, rfl, rfl⟩
    · split at hc
      · cases hc
        exact hsuits
      · exact h.channel hr₁ hc
    · split at hresp <;> exact h.ending hr₁ hresp

/-- A turn of a request that goes on or ends without an answer. -/
theorem put_of_same_channel (hr : s.requests token = some r) {sent : Bool} {ending : Option Ending}
    (hentry : s.pendingResponses r.id = some token → ending = none)
    (hending : ∀ response origin, ending = some (.answered response origin) →
      r.channel = some (response, origin)) :
    Inv (s.put token { r with sent, ending }) := by
  refine h.put hr ⟨rfl, rfl, rfl⟩ (fun hpending => ?_) (fun c hc => h.channel hr hc)
    (fun resp o hresp => h.channel hr (hending resp o hresp))
  obtain ⟨r₁, hr₁, -, hchannel, -⟩ := h.entry hpending
  rw [hr] at hr₁
  cases hr₁
  exact ⟨hchannel, hentry hpending⟩

theorem step {a : BlockTurn} (hproper : s.Proper a) (hstep : Step s a t) : Inv t := by
  cases a with
  | request device file size connected =>
    cases hstep
    exact h.request device file size connected
  | sent token =>
    obtain ⟨r, hr, hready, rfl⟩ := act_eq_some hstep
    rw [Bool.and_eq_true, Option.isNone_iff_eq_none] at hready
    refine h.put_of_same_channel hr (fun _ => hready.1) fun resp o hresp => ?_
    rw [hready.1] at hresp
    cases hresp
  | sendFailed | timeout =>
    obtain ⟨r, hr, -, rfl⟩ := act_eq_some hstep
    exact h.put_of_same_channel hr (fun hpending => absurd hpending (hproper r hr))
      fun _ _ hresp => by cases hresp
  | receive token =>
    obtain ⟨r, hr, hready, rfl⟩ := act_eq_some hstep
    refine h.put_of_same_channel hr (fun hpending => ?_) fun resp o hresp => ?_
    · obtain ⟨r₁, hr₁, -, hchannel, -⟩ := h.entry hpending
      rw [hr] at hr₁
      cases hr₁
      rw [hchannel]
      rfl
    · obtain ⟨c, hc, heq⟩ := Option.map_eq_some_iff.mp hresp
      cases heq
      exact hc
  | closed token =>
    obtain ⟨r, hr, hready, rfl⟩ := act_eq_some hstep
    refine h.put_of_same_channel hr (fun hpending => ?_) fun _ _ hresp => by cases hresp
    simp [hasSender, hpending] at hready
  | response device response =>
    cases hstep
    exact h.take fun token r htoken hr hid => ⟨hid.symm, hproper token r htoken hr⟩
  | cleanup device id =>
    cases hstep
    have hcode : genericCode ≠ noErrorCode := by decide
    exact h.take fun token r htoken hr hid => ⟨hid.symm, hproper token r htoken hr, hcode⟩
  | hand index => exact h.hand hstep

theorem ownAnswers : OwnAnswers display s where
  data {token r data} hr hresult := by
    obtain ⟨response, origin, hending, hcode, hlength, hdata⟩ := result_eq_ok hresult
    obtain ⟨hid, horigin⟩ := h.ending hr hending
    cases origin with
    | session device =>
      rw [← horigin hcode hlength] at hending
      exact ⟨response, hending, hid, hdata⟩
    | cleanup device => exact absurd hcode horigin.2
  ended hr hending := (h.ending hr hending).2.1
  entry {id token r e} hpending hr hresult := by
    obtain ⟨r₁, hr₁, -, -, hending⟩ := h.entry hpending
    rw [hr] at hr₁
    cases hr₁
    rw [BlockRequest.result, hending] at hresult
    cases hresult

end

end Inv

/-- In every state of a run all of whose turns are proper, requests have got their own answers and
left nothing behind. -/
theorem own_answers_of_proper (h : Transition.Reach Step Proper .new s) : OwnAnswers display s := by
  have hinv : Inv s := h.invariant Inv.new fun hproper hstep hinv => hinv.step hproper hstep
  exact hinv.ownAnswers

theorem reach_head {u : BlockSource} (a : BlockTurn) (hproper : s.Proper a)
    (hturn : s.turn a = some u) (h : Transition.Reach Step Proper u t) :
    Transition.Reach Step Proper s t :=
  Relation.ReflTransGen.head ⟨a, hproper, hturn⟩ h

/-- Two requests to two devices, each answered by its own, the later one first. -/
theorem own_answers_of_proper_two :
    ∃ s, new.run [.request ⟨[1]⟩ "a" 1 true, .request ⟨[2]⟩ "b" 1 true, .sent 0, .sent 1,
        .response ⟨[2]⟩ ⟨2, [8], 0⟩, .response ⟨[1]⟩ ⟨1, [7], 0⟩, .hand 1, .hand 0, .receive 0,
        .receive 1] = some s ∧
      (s.requests 0).bind (·.result fun _ => "") = some (.ok [7]) ∧
      (s.requests 1).bind (·.result fun _ => "") = some (.ok [8]) ∧
      OwnAnswers (fun _ => "") s := by
  refine ⟨_, rfl, rfl, rfl, own_answers_of_proper ?_⟩
  refine reach_head (.request ⟨[1]⟩ "a" 1 true) trivial rfl <|
    reach_head (.request ⟨[2]⟩ "b" 1 true) trivial rfl <|
    reach_head (.sent 0) trivial rfl <| reach_head (.sent 1) trivial rfl <|
    reach_head (.response ⟨[2]⟩ ⟨2, [8], 0⟩) ?_ rfl <|
    reach_head (.response ⟨[1]⟩ ⟨1, [7], 0⟩) ?_ rfl <|
    reach_head (.hand 1) trivial rfl <| reach_head (.hand 0) trivial rfl <|
    reach_head (.receive 0) trivial rfl <| reach_head (.receive 1) trivial rfl .refl
  · rintro token r hpending hr - -
    cases hpending
    cases hr
    rfl
  · rintro token r hpending hr - -
    cases hpending
    cases hr
    rfl

/-- A response is taken from whatever device it comes. A request that times out leaves its entry in
the map. -/
theorem answers_not_own :
    (∃ s, new.run [.request ⟨[1]⟩ "a" 1 true, .sent 0, .response ⟨[2]⟩ ⟨1, [7], 0⟩, .hand 0,
        .receive 0] = some s ∧ ¬ OwnAnswers (fun _ => "") s) ∧
    (∃ s, new.run [.request ⟨[1]⟩ "a" 1 true, .sent 0, .timeout 0] = some s ∧
      ¬ OwnAnswers (fun _ => "") s) := by
  refine ⟨⟨_, rfl, fun h => ?_⟩, ⟨_, rfl, fun h => ?_⟩⟩
  · obtain ⟨response, hending, -⟩ := @OwnAnswers.data _ _ h 0 _ [7] rfl rfl
    cases hending
  · exact @OwnAnswers.entry _ _ h 1 0 _ _ rfl rfl rfl

end BlockSource

end Syncthing
