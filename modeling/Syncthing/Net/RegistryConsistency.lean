import Syncthing.Lib.Transition
import Syncthing.Net.Registry

/-! A call takes several operations, each under the lock of one table, so pool and index agree once
the calls are done as long as an operation finds the tables as the operations before it have left
them. A connection that is replaced stays in the index, and one disconnected by its id is not
closed. -/
namespace Syncthing

open Transition RegistryStep ConnectionManager
open Bool (or_eq_false_iff or_eq_true)
open List

variable {κ : Type} [DecidableEq κ]

namespace Registry

/-- A connection is in the pool under the device. -/
def Stored (r : Registry κ) (device : DeviceId) (id : κ) : Prop := ∃ e ∈ r.nested device, e.id = id

/-- The tables agree, and what is not in the pool is closed. -/
structure Consistent (r : Registry κ) : Prop where
  index : ∀ id device, r.connIdIndex id = some device ↔ r.Stored device id
  single : ∀ device, (r.nested device).length ≤ 1
  closed : ∀ id device, r.registered id = some device →
    r.Stored device id ∨ r.manager.closed id = true
  kept : ∀ x ∈ r.dropped, x.2 = x.1

end Registry

namespace RegistryCalls

/-- A connection is registered once. It enters the pool while no other connection is there that is
open or in the index, and the index while it is in the pool. It is closed before it is disconnected
by its id, and the entry of its device is removed while it is empty. -/
def TableGuard (s : RegistryCalls κ) : RegistryEvent κ → Prop
  | .request (.registerConnection _ conn) => s.registry.registered conn.id = none
  | .advance (.swapping device _) => ∀ e ∈ s.registry.nested device,
      s.registry.manager.closed e.id = true ∧ s.registry.connIdIndex e.id = none
  | .advance (.inserting device _) | .advance (.creating device _) => s.registry.nested device = []
  | .advance (.indexing device conn) => s.registry.Stored device conn.id
  | .advance (.removing id _) => s.registry.manager.closed id = true
  | .advance (.emptying _ device) => s.registry.nested device = []
  | _ => True

end RegistryCalls

/-! ## What is left to do -/

namespace RegistryCall

variable (id : κ)

/-- The call is to put the connection into the pool, or to find that it is to be closed. -/
def stores : RegistryCall κ → Bool
  | registering _ conn | replacing _ conn _ | swapping _ conn | inserting _ conn
  | creating _ conn => conn.id = id
  | _ => false

/-- The call is to put the connection into the index. -/
def indexes : RegistryCall κ → Bool
  | indexing _ conn => conn.id = id
  | _ => false

/-- The call is registering the connection. -/
def registers (call : RegistryCall κ) : Bool := call.stores id || call.indexes id

/-- The call has taken the connection from the pool and is to take it from the index. -/
def unindexes : RegistryCall κ → Bool
  | dropping _ _ nested | closingAll nested => nested.any (·.id = id)
  | unindexing conn nested => conn.id = id || nested.any (·.id = id)
  | _ => false

/-- The call is to close the connection or to put it into the pool. -/
def settles : RegistryCall κ → Bool
  | rejecting conn | closing conn => conn.id = id
  | dropping _ _ nested | closingAll nested | unindexing _ nested => nested.any (·.id = id)
  | call => call.stores id

/-- The call has taken the connection from the index and is to take it from the pool. -/
def removes : RegistryCall κ → Bool
  | removing id' _ => id' = id
  | _ => false

/-- The device for which a call has a connection. -/
def claims (device : DeviceId) (id : κ) : RegistryCall κ → Prop
  | registering device' conn | replacing device' conn _ | swapping device' conn
  | inserting device' conn | creating device' conn | indexing device' conn =>
    device' = device ∧ conn.id = id
  | removing id' device' => device' = device ∧ id' = id
  | _ => False

end RegistryCall
open RegistryCall (claims dropping indexes indexing registering registers removes removing settles
  stores unindexes unindexing)

/-- What holds between the operations. -/
structure RegistryInv (r : Registry κ) (calls : List (RegistryCall κ)) : Prop where
  single : ∀ device, (r.nested device).length ≤ 1
  storedFor : ∀ device id, r.Stored device id → r.registered id = some device
  indexFor : ∀ device id, r.connIdIndex id = some device → r.registered id = some device
  callFor : ∀ device id, ∀ call ∈ calls, call.claims device id → r.registered id = some device
  once : ∀ id, calls.countP (·.registers id) ≤ 1
  unindexed : ∀ id, calls.any (·.registers id) = true →
    r.connIdIndex id = none ∧ calls.any (·.removes id) = false
  unstored : ∀ device id, calls.any (·.stores id) = true → ¬ r.Stored device id
  notTaken : ∀ id, calls.any (·.stores id) = true → calls.any (·.unindexes id) = false
  taken : ∀ device id, calls.any (·.unindexes id) = true → ¬ r.Stored device id
  takenFor : ∀ id, calls.any (·.unindexes id) = true → r.registered id ≠ none
  removed : ∀ id, calls.any (·.removes id) = true → r.connIdIndex id = none
  index : ∀ device id, r.connIdIndex id = some device →
    r.Stored device id ∨ calls.any (·.unindexes id) = true
  stored : ∀ device id, r.Stored device id → r.connIdIndex id = some device ∨
    calls.any (·.indexes id) = true ∨ calls.any (·.removes id) = true
  closed : ∀ device id, r.registered id = some device →
    r.Stored device id ∨ r.manager.closed id = true ∨ calls.any (·.settles id) = true
  kept : ∀ x ∈ r.dropped, x.2 = x.1

namespace RegistryInv

variable {r r' : Registry κ} {call : RegistryCall κ}
  {calls calls' next rest : List (RegistryCall κ)} {device : DeviceId} {conn : Connection κ}
  {id : κ} {call' : RegistryCall κ} {connType : ConnectionType}
  {nested : List (Connection κ)}

theorem consistent (h : RegistryInv r []) : r.Consistent where
  index id device := by
    constructor
    · intro hindex
      simpa using h.index device id hindex
    · intro hstored
      simpa using h.stored device id hstored
  single := h.single
  closed id device hid := by simpa using h.closed device id hid
  kept := h.kept

/-- What the tables and the calls hold of one connection. -/
structure View where
  registered : Option DeviceId
  index : Option DeviceId
  closed : Bool
  stored : DeviceId → Prop
  claims : DeviceId → Prop
  registers : Nat
  stores : Bool
  indexes : Bool
  unindexes : Bool
  settles : Bool
  removes : Bool

def view (r : Registry κ) (calls : List (RegistryCall κ)) (id : κ) : View where
  registered := r.registered id
  index := r.connIdIndex id
  closed := r.manager.closed id
  stored device := r.Stored device id
  claims device := ∃ call ∈ calls, call.claims device id
  registers := calls.countP (·.registers id)
  stores := calls.any (·.stores id)
  indexes := calls.any (·.indexes id)
  unindexes := calls.any (·.unindexes id)
  settles := calls.any (·.settles id)
  removes := calls.any (·.removes id)

/-- The invariant for one connection. -/
structure View.Sound (v : View) : Prop where
  storedFor : ∀ device, v.stored device → v.registered = some device
  indexFor : ∀ device, v.index = some device → v.registered = some device
  callFor : ∀ device, v.claims device → v.registered = some device
  once : v.registers ≤ 1
  unindexed : v.registers ≠ 0 → v.index = none ∧ v.removes = false
  unstored : ∀ device, v.stores = true → ¬ v.stored device
  notTaken : v.stores = true → v.unindexes = false
  taken : ∀ device, v.unindexes = true → ¬ v.stored device
  takenFor : v.unindexes = true → v.registered ≠ none
  removed : v.removes = true → v.index = none
  index : ∀ device, v.index = some device → v.stored device ∨ v.unindexes = true
  stored : ∀ device, v.stored device → v.index = some device ∨ v.indexes = true ∨ v.removes = true
  closed : ∀ device, v.registered = some device →
    v.stored device ∨ v.closed = true ∨ v.settles = true

theorem registers_view : calls.any (·.registers id) = true ↔ (view r calls id).registers ≠ 0 := by
  simp [view, countP_eq_zero]

theorem sound_view (h : RegistryInv r calls) (id : κ) : (view r calls id).Sound where
  storedFor device := h.storedFor device id
  indexFor device := h.indexFor device id
  callFor device := fun ⟨call, hcall, hclaims⟩ => h.callFor device id call hcall hclaims
  once := h.once id
  unindexed hreg := h.unindexed id (registers_view.mpr hreg)
  unstored device := h.unstored device id
  notTaken := h.notTaken id
  taken device := h.taken device id
  takenFor := h.takenFor id
  removed := h.removed id
  index device := h.index device id
  stored device := h.stored device id
  closed device := h.closed device id

/-- The invariant is proved for one connection at a time. -/
theorem of_view (hsingle : ∀ device, (r.nested device).length ≤ 1)
    (hkept : ∀ x ∈ r.dropped, x.2 = x.1) (h : ∀ id, (view r calls id).Sound) :
    RegistryInv r calls where
  single := hsingle
  storedFor device id := (h id).storedFor device
  indexFor device id := (h id).indexFor device
  callFor device id call hcall hclaims := (h id).callFor device ⟨call, hcall, hclaims⟩
  once id := (h id).once
  unindexed id hreg := (h id).unindexed (registers_view.mp hreg)
  unstored device id := (h id).unstored device
  notTaken id := (h id).notTaken
  taken device id := (h id).taken device
  takenFor id := (h id).takenFor
  removed id := (h id).removed
  index device id := (h id).index device
  stored device id := (h id).stored device
  closed device id := (h id).closed device
  kept := hkept

theorem view_cons : view r (call :: rest) id = { view r rest id with
    claims := fun device => call.claims device id ∨ (view r rest id).claims device
    registers := (view r rest id).registers + if call.registers id then 1 else 0
    stores := call.stores id || (view r rest id).stores
    indexes := call.indexes id || (view r rest id).indexes
    unindexes := call.unindexes id || (view r rest id).unindexes
    settles := call.settles id || (view r rest id).settles
    removes := call.removes id || (view r rest id).removes } := by
  simp [view, countP_cons]

theorem registers_of_stores (h : (view r calls id).stores = true) :
    (view r calls id).registers ≠ 0 := by
  obtain ⟨call, hcall, hstores⟩ := List.any_eq_true.mp h
  exact registers_view.mp (List.any_eq_true.mpr ⟨call, hcall, by simp [registers, hstores]⟩)

section
variable (h : RegistryInv r calls)
include h

theorem perm (hp : calls.Perm calls') : RegistryInv r calls' := by
  refine of_view h.single h.kept fun id => ?_
  have hview : view r calls' id = view r calls id := by
    simp only [view, ← hp.any_eq, ← hp.mem_iff, ← hp.countP_eq]
  exact hview ▸ h.sound_view id

theorem congr (hnested : ∀ device, r'.nested device = r.nested device)
    (hindex : r'.connIdIndex = r.connIdIndex) (hreg : r'.registered = r.registered)
    (hclosed : ∀ id, r.manager.closed id = true → r'.manager.closed id = true)
    (hdropped : r'.dropped = r.dropped) : RegistryInv r' calls := by
  refine of_view (fun device => hnested device ▸ h.single device) (hdropped ▸ h.kept) fun id => ?_
  have hv := h.sound_view id
  have hview : view r' calls id = { view r calls id with closed := r'.manager.closed id } := by
    simp only [view, Registry.Stored, hnested, hindex, hreg]
  rw [hview]
  exact { hv with
    closed := fun device hid => (hv.closed device hid).imp_right (Or.imp_left (hclosed id)) }

theorem close (conn : Connection κ) : RegistryInv (r.close conn) calls :=
  h.congr (fun _ => rfl) rfl rfl
    (fun id hid => by simp [Registry.close, ConnectionManager.close, hid]) rfl

end

/-- What is left to do after an operation of a call covers what the call was to do, apart from what
is done already. -/
structure Covers (r : Registry κ) (call : RegistryCall κ) (next : List (RegistryCall κ)) :
    Prop where
  claims : ∀ device id, ∀ x ∈ next, x.claims device id → call.claims device id
  registers : ∀ id, next.countP (·.registers id) ≤ if call.registers id then 1 else 0
  stores : ∀ id, next.any (·.stores id) = true → call.stores id = true
  indexes : ∀ id, call.indexes id = true → next.any (·.indexes id) = true
  removes : ∀ id, next.any (·.removes id) = call.removes id
  unindexes : ∀ id, next.any (·.unindexes id) = true → call.unindexes id = true
  unindexed : ∀ id, call.unindexes id = true →
    next.any (·.unindexes id) = true ∨ r.connIdIndex id = none
  settles : ∀ id, call.settles id = true →
    next.any (·.settles id) = true ∨ r.manager.closed id = true

theorem covered (h : RegistryInv r (call :: rest)) (hc : Covers r call next) :
    RegistryInv r (next ++ rest) := by
  refine of_view h.single h.kept fun id => ?_
  have hv := h.sound_view id
  have hview : view r (next ++ rest) id = { view r rest id with
      claims := fun device => (view r next id).claims device ∨ (view r rest id).claims device
      registers := (view r next id).registers + (view r rest id).registers
      stores := (view r next id).stores || (view r rest id).stores
      indexes := (view r next id).indexes || (view r rest id).indexes
      unindexes := (view r next id).unindexes || (view r rest id).unindexes
      settles := (view r next id).settles || (view r rest id).settles
      removes := (view r next id).removes || (view r rest id).removes } := by
    simp [view, or_and_right, exists_or]
  have hclaims : ∀ device, (view r next id).claims device → call.claims device id :=
    fun device ⟨x, hx, hclaims⟩ => hc.claims device id x hx hclaims
  have hregisters : (view r next id).registers ≤ _ := hc.registers id
  have hstores : (view r next id).stores = true → _ := hc.stores id
  have hindexes : _ → (view r next id).indexes = true := hc.indexes id
  have hremoves : (view r next id).removes = _ := hc.removes id
  have hunindexes : (view r next id).unindexes = true → _ := hc.unindexes id
  have hunindexed : _ → (view r next id).unindexes = true ∨ (view r rest id).index = none :=
    hc.unindexed id
  have hsettles : _ → (view r next id).settles = true ∨ (view r rest id).closed = true :=
    hc.settles id
  rw [view_cons] at hv
  rw [hview]
  generalize view r rest id = v, view r next id = w at *
  cases hv
  constructor <;> grind

/-! ## The operations -/

theorem view_setIndex {index : Option DeviceId} {id' : κ} :
    view (r.setIndex id index) calls id' =
      { view r calls id' with index := if id' = id then index else (view r calls id').index } := by
  simp only [view, Registry.setIndex, Function.update_apply]
  rfl

/-- A connection that has been taken from the pool is taken from the index. -/
theorem unindex (h : RegistryInv r calls) (hid : calls.any (·.unindexes id) = true) :
    RegistryInv (r.setIndex id none) calls := by
  refine of_view h.single h.kept fun id' => ?_
  have hv := h.sound_view id'
  have hself : id' = id → (view r calls id').unindexes = true := fun heq => heq ▸ hid
  rw [view_setIndex]
  cases hv
  constructor <;> grind

/-- A call that has nothing in hand. -/
def Idle (call : RegistryCall κ) : Prop :=
  ∀ id, call.stores id = false ∧ call.indexes id = false ∧ call.unindexes id = false ∧
    call.settles id = false ∧ call.removes id = false ∧ ∀ device, ¬ call.claims device id

/-- The stages in which a call has no connection in hand. -/
def IsIdle : RegistryCall κ → Prop
  | .handshaking .. | .taking .. | .contending .. | .dropping _ _ [] | .disconnecting _
  | .closingAll [] | .disconnectingConnection _ | .emptying .. => True
  | _ => False

theorem IsIdle.idle (h : IsIdle call) : Idle call := by
  unfold IsIdle at h
  split at h <;> first
    | exact h.elim
    | simp [Idle, RegistryCall.claims, RegistryCall.stores, RegistryCall.indexes,
        RegistryCall.unindexes, RegistryCall.settles, RegistryCall.removes]

theorem view_idle (hcall : IsIdle call) : view r (call :: rest) id = view r rest id := by
  obtain ⟨hstores, hindexes, hunindexes, hsettles, hremoves, hclaims⟩ := hcall.idle id
  simp [view_cons, registers, hstores, hindexes, hunindexes, hsettles, hremoves, hclaims]

theorem add_idle (h : RegistryInv r rest) (hcall : IsIdle call) : RegistryInv r (call :: rest) :=
  of_view h.single h.kept fun id => (view_idle hcall).symm ▸ h.sound_view id

/-- A call without anything in hand ends. -/
theorem drop_idle (h : RegistryInv r (call :: rest)) (hcall : IsIdle call) : RegistryInv r rest :=
  of_view h.single h.kept fun id => view_idle (r := r) hcall ▸ h.sound_view id

omit [DecidableEq κ] in
theorem nested_setNested {nested : Option (List (Connection κ))} {device' : DeviceId} :
    (r.setNested device nested).nested device' =
      if device' = device then nested.getD [] else r.nested device' := by
  unfold Registry.nested Registry.setNested
  split
  next heq =>
    subst heq
    rw [connections_setConnections]
  next hne => rw [connections_setConnections_of_ne hne]

omit [DecidableEq κ] in
theorem stored_setNested {nested : Option (List (Connection κ))} {device' : DeviceId} :
    (r.setNested device nested).Stored device' id ↔
      if device' = device then ∃ e ∈ nested.getD [], e.id = id else r.Stored device' id := by
  unfold Registry.Stored
  rw [nested_setNested]
  split <;> rfl

theorem single_setNested (h : RegistryInv r calls) {nested : Option (List (Connection κ))}
    (hnested : (nested.getD []).length ≤ 1) (device' : DeviceId) :
    ((r.setNested device nested).nested device').length ≤ 1 := by
  rw [nested_setNested]
  split
  · exact hnested
  · exact h.single device'

theorem view_setNested {nested : Option (List (Connection κ))} :
    view (r.setNested device nested) calls id = { view r calls id with
      stored := fun device' => if device' = device then ∃ e ∈ nested.getD [], e.id = id
        else (view r calls id).stored device' } := by
  simp only [view, stored_setNested]
  rfl

/-- A call that is to put a connection into the pool. -/
structure Stores (device : DeviceId) (conn : Connection κ) (call : RegistryCall κ) : Prop where
  claims : ∀ device' id, call.claims device' id ↔ device = device' ∧ conn.id = id
  stores : ∀ id, call.stores id = decide (conn.id = id)
  indexes : ∀ id, call.indexes id = false
  unindexes : ∀ id, call.unindexes id = false
  settles : ∀ id, call.settles id = decide (conn.id = id)
  removes : ∀ id, call.removes id = false

/-- The stages of a registration before the pool is changed. -/
def IsStoring (device : DeviceId) (conn : Connection κ) : RegistryCall κ → Prop
  | .registering device' conn' | .replacing device' conn' _ | .swapping device' conn'
  | .inserting device' conn' | .creating device' conn' => device' = device ∧ conn' = conn
  | _ => False

theorem IsStoring.stores (h : IsStoring device conn call) : Stores device conn call := by
  cases call <;> simp only [IsStoring] at h
  all_goals
    obtain ⟨rfl, rfl⟩ := h
    constructor <;> simp [claims, stores, indexes, unindexes, settles, removes]

/-- A connection takes the place of connections that are closed and not in the index. -/
theorem store (h : RegistryInv r (call :: rest)) (hstoring : IsStoring device conn call)
    (hguard : ∀ e ∈ r.nested device, r.manager.closed e.id = true ∧ r.connIdIndex e.id = none) :
    RegistryInv (r.setNested device (some [conn])) (.indexing device conn :: rest) := by
  refine of_view (h.single_setNested (by simp)) h.kept fun id => ?_
  have hv := h.sound_view id
  have hold : (view r rest id).stored device →
      (view r rest id).closed = true ∧ (view r rest id).index = none := by
    rintro ⟨e, he, rfl⟩
    exact hguard e he
  have hregisters := @registers_of_stores κ _ r rest id
  obtain ⟨hclaims, hstores, hindexes, hunindexes, hsettles, hremoves⟩ := hstoring.stores
  rw [view_cons] at hv
  rw [view_setNested, view_cons]
  simp only [registers, hclaims, hstores, hindexes, hunindexes, hsettles, hremoves] at hv
  simp only [registers, claims, stores, indexes, unindexes, settles, removes]
  generalize view r rest id = v at *
  cases hv
  constructor <;> grind

/-- A connection in the pool enters the index. -/
theorem indexed (h : RegistryInv r (.indexing device conn :: rest))
    (hst : r.Stored device conn.id) : RegistryInv (r.setIndex conn.id (some device)) rest := by
  refine of_view h.single h.kept fun id => ?_
  have hv := h.sound_view id
  have hself : id = conn.id → (view r rest id).stored device := fun heq => heq ▸ hst
  rw [view_cons] at hv
  rw [view_setIndex]
  simp only [registers, claims, stores, indexes, unindexes, settles, removes] at hv
  generalize view r rest id = v at *
  cases hv
  constructor <;> grind

/-- A call takes the connections of a device from the pool. -/
structure Takes (nested : List (Connection κ)) (call : RegistryCall κ) : Prop where
  claims : ∀ device id, ¬ call.claims device id
  stores : ∀ id, call.stores id = false
  indexes : ∀ id, call.indexes id = false
  unindexes : ∀ id, call.unindexes id = nested.any (·.id = id)
  settles : ∀ id, call.settles id = nested.any (·.id = id)
  removes : ∀ id, call.removes id = false

theorem take (h : RegistryInv r rest)
    (hnested : r.manager.connections device = some nested) (hcall : Takes nested call) :
    RegistryInv (r.setNested device none) (call :: rest) := by
  refine of_view (h.single_setNested (by simp)) h.kept fun id => ?_
  have hv := h.sound_view id
  have hmem : nested.any (·.id = id) = true ↔ (view r rest id).stored device := by
    simp [view, Registry.Stored, Registry.nested, hnested]
  obtain ⟨hclaims, hstores, hindexes, hunindexes, hsettles, hremoves⟩ := hcall
  rw [view_setNested, view_cons]
  simp only [registers, hclaims, hstores, hindexes, hunindexes, hsettles, hremoves]
  generalize view r rest id = v at *
  cases hv
  constructor <;> grind

/-- An id is taken from the index, to be taken from the pool. -/
theorem unlisted (h : RegistryInv r rest) (hid : r.connIdIndex id = some device) :
    RegistryInv (r.setIndex id none) (.removing id device :: rest) := by
  refine of_view h.single h.kept fun id' => ?_
  have hv := h.sound_view id'
  have hself : id = id' → (view r rest id').index = some device := fun heq => heq ▸ hid
  rw [view_setIndex, view_cons]
  simp only [registers, claims, stores, indexes, unindexes, settles, removes]
  generalize view r rest id' = v at *
  cases hv
  constructor <;> grind

/-- A closed connection that is not in the index is taken from the pool. -/
theorem remove (h : RegistryInv r (.removing id device :: rest))
    (hclosed : r.manager.closed id = true)
    (hnested : ∀ device', r'.nested device' = if device' = device then
      (r.nested device).filter (·.id ≠ id) else r.nested device')
    (hindex : r'.connIdIndex = r.connIdIndex) (hreg : r'.registered = r.registered)
    (hclosed' : r'.manager.closed = r.manager.closed)
    (hdropped : ∀ x ∈ r'.dropped, x ∈ r.dropped ∨ x = (id, id)) : RegistryInv r' rest := by
  refine of_view (fun device' => ?_) (fun x hx => ?_) fun id' => ?_
  · rw [hnested]
    split
    · exact Nat.le_trans (length_filter_le _ _) (h.single device)
    · exact h.single device'
  · rcases hdropped x hx with hx | rfl
    · exact h.kept x hx
    · rfl
  · have hv := h.sound_view id'
    have hview : view r' rest id' = { view r rest id' with
        stored := fun device' => (view r rest id').stored device' ∧
          ¬ (device' = device ∧ id' = id) } := by
      simp only [view, Registry.Stored, hnested, hindex, hreg, hclosed']
      grind
    have hself : id' = id → (view r rest id').closed = true := fun heq => heq ▸ hclosed
    have hfor : id' = id → (view r rest id').registered = some device :=
      fun heq => heq ▸ h.callFor device id _ mem_cons_self ⟨rfl, rfl⟩
    rw [view_cons] at hv
    rw [hview]
    simp only [registers, claims, stores, indexes, unindexes, settles, removes] at hv
    generalize view r rest id' = v at *
    cases hv
    constructor <;> grind

theorem registered_of_registers (h : RegistryInv r calls)
    (hid : (view r calls id).registers ≠ 0 ∨ (view r calls id).removes = true) :
    (view r calls id).registered ≠ none := by
  have hcall : ∃ call ∈ calls, call.registers id = true ∨ call.removes id = true := by
    rw [← registers_view] at hid
    rcases hid with hid | hid
    all_goals
      obtain ⟨call, hmem, hcall⟩ := List.any_eq_true.mp hid
      exact ⟨call, hmem, by simp [hcall]⟩
  obtain ⟨call, hmem, hcall⟩ := hcall
  obtain ⟨device, hdevice⟩ : ∃ device, call.claims device id := by
    cases call <;> simp_all [registers, stores, indexes, removes, claims]
  exact Option.ne_none_iff_exists'.mpr ⟨device, h.callFor device id call hmem hdevice⟩

/-- A call begins to register a connection that was not registered before. -/
theorem register (h : RegistryInv r rest) (hnew : r.registered conn.id = none) :
    RegistryInv (r.setRegistered conn.id device) (.registering device conn :: rest) := by
  refine of_view h.single h.kept fun id => ?_
  have hv := h.sound_view id
  have hview : view (r.setRegistered conn.id device) rest id = { view r rest id with
      registered := if id = conn.id then some device else (view r rest id).registered } := by
    simp only [view, Registry.setRegistered, Function.update_apply]
    rfl
  have hself : id = conn.id → (view r rest id).registered = none := fun heq => heq ▸ hnew
  have hclaims := @registered_of_registers κ _ r rest id h
  rw [view_cons, hview]
  simp only [registers, claims, stores, indexes, unindexes, settles, removes]
  generalize view r rest id = v at *
  cases hv
  cases hindex : v.index <;> constructor <;> grind

/-! ## One operation of a call -/

omit [DecidableEq κ] in
theorem getD_nested
    (h : r.manager.connections device = some nested) : r.nested device = nested := by
  rw [Registry.nested, h, Option.getD_some]

/-- A call that has nothing in hand goes on to another one. -/
theorem idle_next (h : RegistryInv r (call :: rest)) (hidle : IsIdle call)
    (hidle' : IsIdle call') : RegistryInv r ([call'] ++ rest) :=
  (h.drop_idle hidle).add_idle hidle'

/-- A call that is to put a connection into the pool goes on to do so. -/
theorem stores_next (h : RegistryInv r (call :: rest))
    (hstoring : IsStoring device conn call) (hstoring' : IsStoring device conn call') :
    RegistryInv r ([call'] ++ rest) := by
  refine of_view h.single h.kept fun id => ?_
  have hview : view r (call' :: rest) id = view r (call :: rest) id := by
    obtain ⟨hclaims, hstores, hindexes, hunindexes, hsettles, hremoves⟩ := hstoring.stores
    obtain ⟨hclaims', hstores', hindexes', hunindexes', hsettles', hremoves'⟩ := hstoring'.stores
    simp only [view_cons, registers, *]
  exact hview ▸ h.sound_view id

/-- The next operation of a call keeps the invariant. -/
def Advances (r : Registry κ) (call : RegistryCall κ) (rest : List (RegistryCall κ)) : Prop :=
  RegistryInv r (call :: rest) → RegistryInv (r.advance call).1 ((r.advance call).2 ++ rest)

theorem advance_registering : Advances r (.registering device conn) rest := by
  intro h
  unfold Registry.advance
  dsimp only
  split
  · exact h.stores_next ⟨rfl, rfl⟩ ⟨rfl, rfl⟩
  · refine h.covered ?_
    constructor <;> simp [RegistryCall.claims, RegistryCall.stores, RegistryCall.indexes,
      RegistryCall.unindexes, RegistryCall.settles, RegistryCall.removes, RegistryCall.registers]
  · exact h.stores_next ⟨rfl, rfl⟩ ⟨rfl, rfl⟩
  · exact h.stores_next ⟨rfl, rfl⟩ ⟨rfl, rfl⟩

theorem advance_swapping
    (hguard : ∀ e ∈ r.nested device, r.manager.closed e.id = true ∧ r.connIdIndex e.id = none) :
    Advances r (.swapping device conn) rest := by
  intro h
  unfold Registry.advance
  dsimp only
  split
  · exact h.store ⟨rfl, rfl⟩ hguard
  · exact h.stores_next ⟨rfl, rfl⟩ ⟨rfl, rfl⟩

theorem advance_inserting
    (hguard : r.nested device = []) : Advances r (.inserting device conn) rest := by
  intro h
  unfold Registry.advance
  dsimp only
  split
  next nested hnested =>
    rw [← getD_nested hnested, hguard]
    exact h.store ⟨rfl, rfl⟩ (by simp [hguard])
  · exact h.stores_next ⟨rfl, rfl⟩ ⟨rfl, rfl⟩

/-- The stages that close connections or take them from the index. -/
def IsTeardown : RegistryCall κ → Prop
  | .rejecting _ | .closing _ | .dropping .. | .closingAll _ | .unindexing .. => True
  | _ => False

theorem IsTeardown.spec (h : IsTeardown call) (id : κ) : call.stores id = false ∧
    call.indexes id = false ∧ call.removes id = false ∧ ∀ device, ¬ call.claims device id := by
  cases call <;> first
    | exact h.elim
    | simp [RegistryCall.claims, RegistryCall.stores, RegistryCall.indexes, RegistryCall.removes]

theorem Covers.of_teardown (hcall : IsTeardown call) (hnext : ∀ x ∈ next, IsTeardown x)
    (hunindexes : ∀ id, next.any (·.unindexes id) = true → call.unindexes id = true)
    (hunindexed : ∀ id, call.unindexes id = true →
      next.any (·.unindexes id) = true ∨ r.connIdIndex id = none)
    (hsettles : ∀ id, call.settles id = true →
      next.any (·.settles id) = true ∨ r.manager.closed id = true) : Covers r call next where
  claims device id x hx hclaims := absurd hclaims (((hnext x hx).spec id).2.2.2 device)
  registers id := by
    have hzero : next.countP (·.registers id) = 0 := List.countP_eq_zero.mpr fun x hx => by
      simp [RegistryCall.registers, ((hnext x hx).spec id).1, ((hnext x hx).spec id).2.1]
    rw [hzero]
    exact Nat.zero_le _
  stores id hany := by
    obtain ⟨x, hx, hstores⟩ := List.any_eq_true.mp hany
    rw [((hnext x hx).spec id).1] at hstores
    cases hstores
  indexes id hid := by
    rw [(hcall.spec id).2.1] at hid
    cases hid
  removes id := by
    rw [(hcall.spec id).2.2.1, any_eq_false]
    intro x hx
    simp [((hnext x hx).spec id).2.2.1]
  unindexes := hunindexes
  unindexed := hunindexed
  settles := hsettles

theorem closed_close : (r.close conn).manager.closed conn.id = true := by
  simp [Registry.close, ConnectionManager.close]

theorem connIdIndex_setIndex_self : (r.setIndex id none).connIdIndex id = none := by
  simp [Registry.setIndex]

theorem advance_closing (h : RegistryInv r (call :: rest))
    (hcall : call = .rejecting conn ∨ call = .closing conn) :
    RegistryInv (r.close conn) ([] ++ rest) := by
  rcases hcall with rfl | rfl
  all_goals
    refine (h.close conn).covered (.of_teardown trivial (by simp) (by simp) (by
      simp [unindexes]) fun id hid => .inr ?_)
    rw [← of_decide_eq_true hid]
    exact closed_close

theorem takes_dropping : Takes nested (.dropping device connType nested) := by
  constructor <;> simp [RegistryCall.claims, RegistryCall.stores, RegistryCall.indexes,
    unindexes, settles, removes]

theorem takes_closingAll : Takes nested (.closingAll nested) := by
  constructor <;> simp [RegistryCall.claims, RegistryCall.stores, RegistryCall.indexes,
    unindexes, settles, removes]

theorem advance_taking : Advances r (.taking device connType) rest := by
  intro h
  unfold Registry.advance
  dsimp only
  split
  next hnested => exact (h.drop_idle trivial).take hnested takes_dropping
  · exact h.idle_next trivial trivial

theorem advance_disconnecting : Advances r (.disconnecting device) rest := by
  intro h
  unfold Registry.advance
  dsimp only
  split
  next hnested => exact (h.drop_idle trivial).take hnested takes_closingAll
  · exact h.drop_idle trivial

/-- The next of the connections that a call has taken leaves the index. -/
theorem unindex_next (h : RegistryInv r (call :: rest)) (hcall : IsTeardown call)
    (hnext : ∀ x ∈ next, IsTeardown x)
    (hunindexes : ∀ id, call.unindexes id = (decide (conn.id = id) || next.any (·.unindexes id)))
    (hsettles : ∀ id, call.settles id = next.any (·.settles id)) :
    RegistryInv (r.setIndex conn.id none) (next ++ rest) := by
  have hself : (call :: rest).any (·.unindexes conn.id) = true := by simp [hunindexes]
  refine (h.unindex hself).covered (.of_teardown hcall hnext (fun id hid => ?_) (fun id hid => ?_)
    fun id hid => .inl (hsettles id ▸ hid))
  · rw [hunindexes, hid, Bool.or_true]
  · rw [hunindexes, or_eq_true, decide_eq_true_eq] at hid
    rcases hid with rfl | hid
    · exact .inr connIdIndex_setIndex_self
    · exact .inl hid

theorem advance_closingAll (h : RegistryInv r (.closingAll (conn :: nested) :: rest)) :
    RegistryInv (r.close conn) ([.unindexing conn nested] ++ rest) := by
  refine (h.close conn).covered (.of_teardown trivial ?_ ?_ ?_ ?_)
  · simp [IsTeardown]
  · intro id hid
    simpa [unindexes] using hid
  · intro id hid
    exact .inl (by simpa [unindexes] using hid)
  · intro id hid
    simp only [any_cons, settles, or_eq_true, decide_eq_true_eq] at hid
    rcases hid with rfl | hid
    · exact .inr closed_close
    · exact .inl (by simpa [settles] using hid)

theorem advance_contending : Advances r (.contending device connType) rest := by
  intro h
  have hrest := h.drop_idle trivial
  unfold Registry.advance
  dsimp only
  split
  next m hm =>
    refine hrest.congr (fun device' => ?_) rfl rfl (fun id hid => ?_) rfl
    · rcases contend_eq_ok hm with rfl | rfl <;> rfl
    · rcases contend_eq_ok hm with rfl | rfl <;> exact hid
  · exact hrest

theorem advance_disconnectingConnection : Advances r (.disconnectingConnection id) rest := by
  intro h
  have hrest := h.drop_idle trivial
  unfold Registry.advance
  dsimp only
  split
  next device hdevice => exact hrest.unlisted hdevice
  · exact hrest

theorem advance_removing
    (hclosed : r.manager.closed id = true) : Advances r (.removing id device) rest := by
  intro h
  unfold Registry.advance
  dsimp only
  split
  next nested hnested =>
    have hrest : RegistryInv ((r.drop id (nested.filter (·.id = id))).setNested device
        (some (nested.filter (·.id ≠ id)))) rest := by
      refine h.remove hclosed (fun device' => ?_) rfl rfl rfl fun x hx => ?_
      · rw [nested_setNested, getD_nested hnested]
        rfl
      · rcases List.mem_append.mp hx with hx | hx
        · exact .inl hx
        · obtain ⟨e, he, rfl⟩ := List.mem_map.mp hx
          rw [of_decide_eq_true (List.mem_filter.mp he).2]
          exact .inr rfl
    split
    · exact hrest.add_idle trivial
    · exact hrest
  next hnone =>
    have hnil : r.nested device = [] := by rw [Registry.nested, hnone, Option.getD_none]
    refine add_idle (h.remove hclosed (fun device' => ?_) rfl rfl rfl fun x => .inl)
      trivial
    split
    next heq =>
      rw [heq, hnil]
      rfl
    · rfl

theorem advance_emptying
    (hguard : r.nested device = []) : Advances r (.emptying id device) rest := by
  intro h
  refine (h.drop_idle trivial).congr (fun device' => ?_) rfl rfl (fun _ h => h) ?_
  · change ((r.drop id (r.nested device)).setNested device none).nested device' = r.nested device'
    rw [nested_setNested]
    split
    next heq =>
      rw [heq, hguard]
      rfl
    · rfl
  · change r.dropped ++ (r.nested device).map _ = r.dropped
    rw [hguard, map_nil, append_nil]

end RegistryInv

open RegistryInv

namespace RegistryCalls

variable {s s' : RegistryCalls κ} {call : RegistryCall κ} {rest : List (RegistryCall κ)}
  {r : Registry κ}

theorem inv_advance (hok : TableGuard ⟨r, call :: rest⟩ (.advance call)) :
    Advances r call rest := by
  intro h
  cases call with
  | registering => exact advance_registering h
  | replacing device conn old => exact (h.close old).stores_next ⟨rfl, rfl⟩ ⟨rfl, rfl⟩
  | swapping => exact advance_swapping hok h
  | inserting => exact advance_inserting hok h
  | creating device conn =>
    have hnil : r.nested device = [] := hok
    exact h.store ⟨rfl, rfl⟩ (by simp [hnil])
  | indexing => exact h.indexed hok
  | rejecting => exact h.advance_closing (.inl rfl)
  | handshaking device connType =>
    unfold Registry.advance
    dsimp only
    split <;> exact h.idle_next trivial trivial
  | taking => exact advance_taking h
  | dropping device connType nested =>
    cases nested with
    | nil => exact h.idle_next trivial trivial
    | cons conn nested =>
      refine h.unindex_next trivial ?_ ?_ ?_ <;>
        simp [Registry.advance, IsTeardown, unindexes, settles]
  | contending => exact advance_contending h
  | closing => exact h.advance_closing (.inr rfl)
  | disconnecting => exact advance_disconnecting h
  | closingAll nested =>
    cases nested with
    | nil => exact h.drop_idle trivial
    | cons conn nested => exact h.advance_closingAll
  | unindexing =>
    refine h.unindex_next trivial ?_ ?_ ?_ <;>
      simp [Registry.advance, IsTeardown, unindexes, settles]
  | disconnectingConnection => exact advance_disconnectingConnection h
  | removing => exact advance_removing hok h
  | emptying => exact advance_emptying hok h

theorem inv_request {calls : List (RegistryCall κ)} {request : RegistryRequest κ}
    (h : RegistryInv r calls) (hok : TableGuard ⟨r, calls⟩ (.request request)) :
    RegistryInv (r.begin request) (request.call :: calls) := by
  cases request with
  | registerConnection device conn => exact h.register hok
  | beginHandshake | disconnect | disconnectConnection => exact h.add_idle trivial

theorem inv_step {e : RegistryEvent κ} (hok : s.TableGuard e) (hstep : RegistryStep s e s')
    (h : RegistryInv s.registry s.calls) : RegistryInv s'.registry s'.calls := by
  cases hstep with
  | request => exact (inv_request h hok).perm (perm_append_singleton _ _).symm
  | @advance before call later hs =>
    have hold : RegistryInv s.registry (call :: (before ++ later)) := (hs ▸ h).perm perm_middle
    refine (inv_advance ?_ hold).perm ?_
    · cases call <;> exact hok
    · rw [append_assoc]
      exact perm_append_comm_assoc _ _ _
  | ends => exact h.close _

end RegistryCalls

theorem registryInv_new {device : DeviceId} :
    RegistryInv (Registry.new device : Registry κ) [] := by
  constructor <;> simp [Registry.new, Registry.Stored, Registry.nested, new]

/-- In a run all of whose operations meet the guard, the registry is consistent whenever no call is
in progress. -/
theorem guarded_registry_consistent {device : DeviceId} {s : RegistryCalls κ}
    (h : Reach RegistryStep RegistryCalls.TableGuard ⟨.new device, []⟩ s) (hrest : s.calls = []) :
    s.registry.Consistent := by
  have hinv : RegistryInv s.registry s.calls :=
    h.invariant (I := fun s => RegistryInv s.registry s.calls) registryInv_new
      RegistryCalls.inv_step
  rw [hrest] at hinv
  exact hinv.consistent

def smallDevice : DeviceId := ⟨[0]⟩

def largeDevice : DeviceId := ⟨[1]⟩

/-- A connection is registered, and the device is disconnected. -/
theorem guarded_registry_consistent_outgoing : ∃ s : RegistryCalls Nat,
    Reach RegistryStep RegistryCalls.TableGuard ⟨.new smallDevice, []⟩ s ∧ s.calls = [] ∧
      s.registry.registered 0 = some largeDevice ∧ s.registry.Consistent := by
  have h : Reach RegistryStep RegistryCalls.TableGuard ⟨.new smallDevice, []⟩ _ :=
    ((((((((Reach.refl.next
      (@request _ _ _ (.registerConnection largeDevice ⟨0, .outgoing⟩)) rfl).next
      (@advance _ _ _ [] _ [] rfl) trivial).next
      (@advance _ _ _ [] _ [] rfl) rfl).next
      (@advance _ _ _ [] _ [] rfl) ⟨_, mem_cons_self, rfl⟩).next
      (@request _ _ _ (.disconnect largeDevice)) trivial).next
      (@advance _ _ _ [] _ [] rfl) trivial).next
      (@advance _ _ _ [] _ [] rfl) trivial).next
      (@advance _ _ _ [] _ [] rfl) trivial).next
      (@advance _ _ _ [] (.closingAll []) [] rfl) trivial
  exact ⟨_, h, rfl, rfl, guarded_registry_consistent h rfl⟩

/-- An incoming connection replaces an outgoing one, which stays in the index. -/
theorem replaced_connection_indexed : ∃ s : RegistryCalls Nat,
    Reach RegistryStep (fun _ _ => True) ⟨.new smallDevice, []⟩ s ∧ s.calls = [] ∧
      s.registry.connIdIndex 0 = some largeDevice ∧
      s.registry.nested largeDevice = [⟨1, .incoming⟩] ∧ ¬ s.registry.Consistent := by
  have h : Reach RegistryStep (fun _ _ => True) ⟨.new smallDevice, []⟩ _ :=
    Reach.refl.go (@request _ _ _ (.registerConnection largeDevice ⟨0, .outgoing⟩))
      |>.go (@advance _ _ _ [] _ [] rfl)
      |>.go (@advance _ _ _ [] _ [] rfl)
      |>.go (@advance _ _ _ [] _ [] rfl)
      |>.go (@request _ _ _ (.registerConnection largeDevice ⟨1, .incoming⟩))
      |>.go (@advance _ _ _ [] _ [] rfl)
      |>.go (@advance _ _ _ [] _ [] rfl)
      |>.go (@advance _ _ _ [] _ [] rfl)
      |>.go (@advance _ _ _ [] _ [] rfl)
  refine ⟨_, h, rfl, rfl, rfl, fun hconsistent => ?_⟩
  obtain ⟨e, he, hid⟩ := (hconsistent.index 0 largeDevice).mp rfl
  rw [List.mem_singleton.mp he] at hid
  cases hid

end Syncthing
