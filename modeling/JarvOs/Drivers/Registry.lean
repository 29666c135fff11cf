/-
# The driver registry (`kernel/drivers/driver.c`)

Registered devices hang on one intrusive list, newest first.  The device structures belong to the
drivers: the registry only links and unlinks them, and follows their names and their operations.  A
driver may fill in a structure of its own at any time that it is NOT on the list.

`Bindings` is what the registry is for: a map from names to devices.  `driverStep_simulates` is the simulation:
every operation answers as the map does.  It rests on `Listed`: the list ends, and no two of its members
have the same name.  Uniqueness holds because `driver_register` looks the name up first; and because of
it, unlinking the first device of a name takes that name off the map.
-/
import JarvOs.Lib.Chain
import JarvOs.Lib.Trace
import JarvOs.Fs.PathLaws

namespace JarvOs.Drivers.Registry

open JarvOs.Lib
open JarvOs.Fs (CString strcmp kernelFailure kernelSuccess)

variable {δ κ : Type}

/-! ## 1. The code -/

section Code

variable [DecidableEq δ] [Fintype δ]

/-- The function pointers of `device_ops_t` that the registry follows; `none` is NULL. -/
structure DeviceOps (κ : Type) where
  read : Option κ
  write : Option κ
  ioctl : Option κ

/-- What a driver fills in of its `device_t`.  `ops` may be NULL; the name is an array, so it is not. -/
structure DeviceInfo (κ : Type) where
  name : CString
  ops : Option (DeviceOps κ)

/-- The device structures, at addresses `δ`, and `device_list`. -/
structure DriverState (δ κ : Type) where
  info : δ → DeviceInfo κ
  next : δ → Option δ
  deviceList : Option δ

/-- `driver_init` -/
def driverInit (s : DriverState δ κ) : DriverState δ κ := { s with deviceList := none }

/-- The loop of `driver_lookup`.  A list that does not end comes back to a device it has been at. -/
def lookupFrom (s : DriverState δ κ) (name : CString) : Nat → Option δ → Option (Option δ)
  | 0, _ => none
  | _ + 1, none => some none
  | fuel + 1, some curr =>
    if strcmp (s.info curr).name.bytes name.bytes = 0 then some (some curr)
    else lookupFrom s name fuel (s.next curr)

/-- `driver_lookup` -/
def driverLookup (s : DriverState δ κ) (name : Option CString) : Option (Option δ) :=
  match name with
  | none => some none
  | some name => lookupFrom s name (Fintype.card δ + 1) s.deviceList

/-- `driver_register` -/
def driverRegister (s : DriverState δ κ) (dev : Option δ) : Option (Int × DriverState δ κ) :=
  match dev with
  | none => some (kernelFailure, s)
  | some dev =>
    if (s.info dev).ops.isNone then some (kernelFailure, s)
    else do
      match ← driverLookup s (some (s.info dev).name) with
      | some _ => some (kernelFailure, s)
      | none =>
        some (kernelSuccess,
          { s with next := Function.update s.next dev s.deviceList, deviceList := some dev })

/-- Unlinking `curr`, which comes after `prev`. -/
def unlink (s : DriverState δ κ) (prev : Option δ) (curr : δ) : DriverState δ κ :=
  match prev with
  | some prev => { s with next := Function.update s.next prev (s.next curr) }
  | none => { s with deviceList := s.next curr }

/-- The loop of `driver_unregister`. -/
def unregisterFrom (s : DriverState δ κ) (name : CString) :
    Nat → Option δ → Option δ → Option (Int × DriverState δ κ)
  | 0, _, _ => none
  | _ + 1, _, none => some (kernelFailure, s)
  | fuel + 1, prev, some curr =>
    if strcmp (s.info curr).name.bytes name.bytes = 0 then some (kernelSuccess, unlink s prev curr)
    else unregisterFrom s name fuel (some curr) (s.next curr)

/-- `driver_unregister` -/
def driverUnregister (s : DriverState δ κ) (name : Option CString) : Option (Int × DriverState δ κ) :=
  match name with
  | none => some (kernelFailure, s)
  | some name => unregisterFrom s name (Fintype.card δ + 1) none s.deviceList

/-- A call of `driver_read`, `driver_write` or `driver_ioctl`, with the arguments they pass on. -/
inductive Request
  | read (buf count offset : Nat)
  | write (buf count offset : Nat)
  | ioctl (request : Int) (arg : Nat)
deriving DecidableEq, Repr

/-- The function pointer a request follows. -/
def Request.handler (ops : DeviceOps κ) : Request → Option κ
  | .read _ _ _ => ops.read
  | .write _ _ _ => ops.write
  | .ioctl _ _ => ops.ioctl

/-- What a caller gets to see: a result, a device, or that a driver's function was called and has
returned. -/
inductive Answer (δ κ : Type)
  | status (r : Int)
  | device (dev : Option δ)
  | invoked (handler : κ) (req : Request)
  | done

/-- `driver_read`, `driver_write` and `driver_ioctl`; following a NULL `ops` is a fault. -/
def driverRequest (s : DriverState δ κ) (name : Option CString) (req : Request) : Option (Answer δ κ) := do
  match ← driverLookup s name with
  | none => some (.status kernelFailure)
  | some dev =>
    let ops ← (s.info dev).ops
    match req.handler ops with
    | none => some (.status kernelFailure)
    | some handler => some (.invoked handler req)

/-- The calls of the registry, and drivers filling in their structures. -/
inductive Op (δ κ : Type)
  | register (dev : Option δ)
  | unregister (name : Option CString)
  | lookup (name : Option CString)
  | request (name : Option CString) (req : Request)
  | fill (dev : δ) (info : DeviceInfo κ) (next : Option δ)

/-- One operation. -/
def driverStep (s : DriverState δ κ) : Op δ κ → Option (Answer δ κ × DriverState δ κ)
  | .register dev => (driverRegister s dev).map (fun r => (.status r.1, r.2))
  | .unregister name => (driverUnregister s name).map (fun r => (.status r.1, r.2))
  | .lookup name => (driverLookup s name).map (fun dev => (.device dev, s))
  | .request name req => (driverRequest s name req).map (fun a => (a, s))
  | .fill dev info next =>
    some (.done, { s with
      info := Function.update s.info dev info, next := Function.update s.next dev next })

end Code

/-! ## 2. The map -/

section Map

variable [DecidableEq δ]

/-- A map from names to devices, and what the drivers have filled in. -/
structure Bindings (δ κ : Type) where
  bound : CString → Option δ
  info : δ → DeviceInfo κ

/-- A device is bound to its name if it has operations and the name is free. -/
def Bindings.register (r : Bindings δ κ) (dev : Option δ) : Answer δ κ × Bindings δ κ :=
  match dev with
  | none => (.status kernelFailure, r)
  | some dev =>
    if (r.info dev).ops.isSome ∧ r.bound (r.info dev).name = none then
      (.status kernelSuccess, { r with bound := Function.update r.bound (r.info dev).name (some dev) })
    else (.status kernelFailure, r)

/-- A name that is bound is freed. -/
def Bindings.unregister (r : Bindings δ κ) (name : Option CString) : Answer δ κ × Bindings δ κ :=
  match name with
  | none => (.status kernelFailure, r)
  | some name =>
    if r.bound name = none then (.status kernelFailure, r)
    else (.status kernelSuccess, { r with bound := Function.update r.bound name none })

/-- A request goes to the device that is bound, if it has the operation. -/
def Bindings.request (r : Bindings δ κ) (name : Option CString) (req : Request) : Answer δ κ :=
  match ((name.bind r.bound).bind (fun dev => (r.info dev).ops)).bind req.handler with
  | none => .status kernelFailure
  | some handler => .invoked handler req

/-- One operation on the map. -/
def Bindings.step (r : Bindings δ κ) : Op δ κ → Answer δ κ × Bindings δ κ
  | .register dev => r.register dev
  | .unregister name => r.unregister name
  | .lookup name => (.device (name.bind r.bound), r)
  | .request name req => (r.request name req, r)
  | .fill dev info _ => (.done, { r with info := Function.update r.info dev info })

/-- Drivers fill in structures that are not bound. -/
def FillsUnbound (r : Bindings δ κ) : Op δ κ → Prop
  | .fill dev _ _ => ∀ name, r.bound name ≠ some dev
  | _ => True

end Map

/-! ## 3. The list -/

/-- The list ends, no two members have the same name, and all have operations. -/
structure Listed (s : DriverState δ κ) (devs : List δ) : Prop where
  chain : Chain s.next s.deviceList devs
  names : (devs.map (fun d => (s.info d).name)).Nodup
  ops : ∀ d ∈ devs, (s.info d).ops.isSome

variable {s : DriverState δ κ} {devs pre post : List δ} {d e : δ} {name : CString}

theorem strcmp_names (a b : CString) : strcmp a.bytes b.bytes = 0 ↔ a = b := by
  rw [JarvOs.Fs.strcmp_eq_zero_iff a.noNul b.noNul]
  cases a
  cases b
  simp

/-- A new first member. -/
theorem Listed.push [DecidableEq δ] (h : Listed s devs) (hops : (s.info d).ops.isSome)
    (hname : ∀ e ∈ devs, (s.info e).name ≠ (s.info d).name) :
    Listed { s with next := Function.update s.next d s.deviceList, deviceList := some d }
      (d :: devs) := by
  have hnot : d ∉ devs := fun hd => hname d hd rfl
  refine ⟨h.chain.push hnot, ?_, ?_⟩
  · rw [List.map_cons, List.nodup_cons]
    refine ⟨fun hmem => ?_, h.names⟩
    obtain ⟨e, he, heq⟩ := List.mem_map.mp hmem
    exact hname e he heq
  · intro e he
    rcases List.mem_cons.mp he with rfl | he
    · exact hops
    · exact h.ops e he

theorem Listed.nodup (h : Listed s devs) : devs.Nodup := h.names.of_map _

/-- A member is told by its name. -/
theorem Listed.eq_of_name (h : Listed s devs) (hd : d ∈ devs) (he : e ∈ devs)
    (heq : (s.info d).name = (s.info e).name) : d = e :=
  List.inj_on_of_nodup_map h.names hd he heq

/-- Every other member has another name. -/
theorem Listed.name_ne (h : Listed s (pre ++ d :: post)) (he : e ∈ pre ++ post) :
    (s.info e).name ≠ (s.info d).name := by
  intro heq
  have hnd := h.nodup
  rw [List.nodup_middle, List.nodup_cons] at hnd
  have hmem : e ∈ pre ++ d :: post :=
    (List.Sublist.append_left (List.sublist_cons_self d post) pre).subset he
  rw [h.eq_of_name hmem (List.mem_append_right pre List.mem_cons_self) heq] at he
  exact hnd.1 he

/-- What `driver_lookup` finds on a list that ends. -/
theorem lookupFrom_eq (name : CString) : ∀ {devs : List δ} {fuel : Nat} {a : Option δ},
    Chain s.next a devs → devs.length < fuel →
    lookupFrom s name fuel a = some (devs.find? (fun d => (s.info d).name = name)) := by
  intro devs
  induction devs with
  | nil =>
    rintro (_ | fuel) a hchain hfuel
    · exact absurd hfuel (Nat.not_lt_zero _)
    · obtain rfl : a = none := hchain
      rfl
  | cons d devs ih =>
    rintro (_ | fuel) a ⟨rfl, hrest⟩ hfuel
    · exact absurd hfuel (Nat.not_lt_zero _)
    · rw [lookupFrom, List.find?_cons]
      by_cases hname : (s.info d).name = name
      · rw [if_pos ((strcmp_names _ _).mpr hname), decide_eq_true hname]
      · rw [if_neg (fun h0 => hname ((strcmp_names _ _).mp h0)), decide_eq_false hname]
        exact ih hrest (Nat.lt_of_succ_lt_succ hfuel)

/-- What `driver_unregister` does to a list that ends: without a device of that name, nothing. -/
theorem unregisterFrom_absent [DecidableEq δ] (name : CString) : ∀ {devs : List δ} {fuel : Nat}
    {prev a : Option δ}, Chain s.next a devs → devs.length < fuel →
    (∀ d ∈ devs, (s.info d).name ≠ name) →
    unregisterFrom s name fuel prev a = some (kernelFailure, s) := by
  intro devs
  induction devs with
  | nil =>
    rintro (_ | fuel) prev a hchain hfuel -
    · exact absurd hfuel (Nat.not_lt_zero _)
    · obtain rfl : a = none := hchain
      rfl
  | cons d devs ih =>
    rintro (_ | fuel) prev a ⟨rfl, hrest⟩ hfuel habsent
    · exact absurd hfuel (Nat.not_lt_zero _)
    · rw [unregisterFrom, if_neg (fun h0 => habsent d List.mem_cons_self ((strcmp_names _ _).mp h0))]
      exact ih hrest (Nat.lt_of_succ_lt_succ hfuel)
        (fun e he => habsent e (List.mem_cons_of_mem _ he))

/-- The first device of that name is unlinked from the one before it. -/
theorem unregisterFrom_present [DecidableEq δ] {post : List δ} (hd : (s.info d).name = name) :
    ∀ {pre : List δ} {fuel : Nat} {prev a : Option δ}, Chain s.next a (pre ++ d :: post) →
    (pre ++ d :: post).length < fuel → (∀ e ∈ pre, (s.info e).name ≠ name) →
    unregisterFrom s name fuel prev a =
      some (kernelSuccess, unlink s (pre.getLast?.or prev) d) := by
  intro pre
  induction pre with
  | nil =>
    rintro (_ | fuel) prev a ⟨rfl, -⟩ hfuel -
    · exact absurd hfuel (Nat.not_lt_zero _)
    · rw [unregisterFrom, if_pos ((strcmp_names _ _).mpr hd)]
      rfl
  | cons x pre ih =>
    rintro (_ | fuel) prev a ⟨rfl, hrest⟩ hfuel habsent
    · exact absurd hfuel (Nat.not_lt_zero _)
    · rw [unregisterFrom, if_neg (fun h0 => habsent x List.mem_cons_self ((strcmp_names _ _).mp h0)),
        ih hrest (Nat.lt_of_succ_lt_succ hfuel) (fun e he => habsent e (List.mem_cons_of_mem _ he))]
      rcases List.eq_nil_or_concat' pre with rfl | ⟨ys, y, rfl⟩
      · rfl
      · rw [← List.cons_append, List.getLast?_concat, List.getLast?_concat]
        rfl

theorem unlink_info [DecidableEq δ] (s : DriverState δ κ) (prev : Option δ) (curr : δ) :
    (Registry.unlink s prev curr).info = s.info := by
  cases prev with
  | none => rfl
  | some prev => rfl

/-- A list without one of its members. -/
theorem Listed.unlink [DecidableEq δ] (h : Listed s (pre ++ d :: post)) :
    Listed (Registry.unlink s pre.getLast? d) (pre ++ post) := by
  have hsub : (pre ++ post).Sublist (pre ++ d :: post) :=
    List.Sublist.append_left (List.sublist_cons_self d post) pre
  refine ⟨?_, ?_, fun e he => ?_⟩
  · rcases List.eq_nil_or_concat' pre with rfl | ⟨ys, y, rfl⟩
    · exact h.chain.2
    · rw [List.getLast?_concat]
      exact h.chain.unlink h.nodup List.getLast?_concat
  · rw [unlink_info]
    exact h.names.sublist (hsub.map _)
  · rw [unlink_info]
    exact h.ops e (hsub.subset he)

theorem unregisterFrom_failed [DecidableEq δ] {name : CString} {s' : DriverState δ κ} : ∀ {fuel : Nat}
    {prev a : Option δ}, unregisterFrom s name fuel prev a = some (kernelFailure, s') → s' = s := by
  intro fuel
  induction fuel with
  | zero => exact fun h => absurd h (by simp [unregisterFrom])
  | succ fuel ih =>
    intro prev a h
    cases a with
    | none => exact (Prod.mk.inj (Option.some.inj h)).2.symm
    | some d =>
      rw [unregisterFrom] at h
      split at h
      · exact absurd (Prod.mk.inj (Option.some.inj h)).1 (by decide)
      · exact ih h

variable [Fintype δ]

/-- The loops have fuel for a list without repetitions. -/
theorem Listed.length_lt (h : Listed s devs) : devs.length < Fintype.card δ + 1 :=
  Nat.lt_succ_of_le h.nodup.length_le_card

/-- The map a state stands for. -/
def bindings (s : DriverState δ κ) : Bindings δ κ :=
  ⟨fun name => (driverLookup s (some name)).join, s.info⟩

theorem Listed.lookup (h : Listed s devs) (name : Option CString) :
    driverLookup s name = some (name.bind (bindings s).bound) := by
  cases name with
  | none => rfl
  | some name =>
    have hfind := lookupFrom_eq name h.chain h.length_lt
    simp only [driverLookup, Option.bind_some, bindings, hfind, Option.join_some]

/-- **What is bound**: the members of the list, each to its name. -/
theorem Listed.bound_iff (h : Listed s devs) :
    (bindings s).bound name = some d ↔ d ∈ devs ∧ (s.info d).name = name := by
  have hbound : (bindings s).bound name = devs.find? (fun d => (s.info d).name = name) := by
    simp only [bindings, driverLookup, lookupFrom_eq name h.chain h.length_lt, Option.join_some]
  rw [hbound]
  constructor
  · intro hfind
    exact ⟨List.mem_of_find?_eq_some hfind, by simpa using List.find?_some hfind⟩
  · rintro ⟨hd, hname⟩
    cases hfind : devs.find? (fun d => (s.info d).name = name) with
    | none => exact absurd hname (by simpa using List.find?_eq_none.mp hfind d hd)
    | some e =>
      have he : (s.info e).name = name := by simpa using List.find?_some hfind
      rw [h.eq_of_name hd (List.mem_of_find?_eq_some hfind) (hname.trans he.symm)]

theorem Listed.unbound_iff (h : Listed s devs) :
    (bindings s).bound name = none ↔ ∀ d ∈ devs, (s.info d).name ≠ name := by
  rw [Option.eq_none_iff_forall_ne_some]
  simp only [ne_eq, h.bound_iff, not_and]

/-- A list of the members says what is bound. -/
theorem bindings_eq {s' : DriverState δ κ} {devs' : List δ} (h' : Listed s' devs')
    {r : Bindings δ κ} (hinfo : r.info = s'.info)
    (hbound : ∀ name d, r.bound name = some d ↔ d ∈ devs' ∧ (s'.info d).name = name) :
    bindings s' = r := by
  have hfun : (bindings s').bound = r.bound := by
    funext name
    ext d
    rw [h'.bound_iff, hbound]
  cases r
  subst hinfo
  exact congrArg (fun b => Bindings.mk b s'.info) hfun

/-! ## 4. The operations -/

/-- What an operation has to do: answer as the map does, and leave a list that stands for the map it
leaves. -/
def Simulates [DecidableEq δ] (s : DriverState δ κ) (op : Op δ κ) : Prop :=
  ∃ s', driverStep s op = some (((bindings s).step op).1, s') ∧ (∃ devs, Listed s' devs) ∧
    bindings s' = ((bindings s).step op).2

variable [DecidableEq δ]

theorem register_simulates (h : Listed s devs) (dev : Option δ) : Simulates s (.register dev) := by
  cases dev with
  | none => exact ⟨s, rfl, ⟨devs, h⟩, rfl⟩
  | some d =>
    have hlookup := h.lookup (some (s.info d).name)
    rw [Option.bind_some] at hlookup
    simp only [Simulates, driverStep, driverRegister, Bindings.step, Bindings.register, hlookup,
      show (bindings s).info = s.info from rfl]
    cases hops : (s.info d).ops with
    | none => exact ⟨s, rfl, ⟨devs, h⟩, rfl⟩
    | some ops =>
      cases hbound : (bindings s).bound (s.info d).name with
      | some e => exact ⟨s, rfl, ⟨devs, h⟩, rfl⟩
      | none =>
        have hfree := h.unbound_iff.mp hbound
        have hpush := h.push (by rw [hops]; rfl) hfree
        refine ⟨_, rfl, ⟨_, hpush⟩, bindings_eq hpush rfl (fun name e => ?_)⟩
        simp only [Option.isSome_some, and_self, if_true, List.mem_cons]
        by_cases hname : name = (s.info d).name
        · subst hname
          rw [Function.update_self, Option.some.injEq]
          constructor
          · rintro rfl
            exact ⟨Or.inl rfl, rfl⟩
          · rintro ⟨rfl | he, heq⟩
            · rfl
            · exact absurd heq (hfree e he)
        · rw [Function.update_of_ne hname, h.bound_iff]
          constructor
          · rintro ⟨he, heq⟩
            exact ⟨Or.inr he, heq⟩
          · rintro ⟨rfl | he, heq⟩
            · exact absurd heq.symm hname
            · exact ⟨he, heq⟩

theorem unregister_simulates (h : Listed s devs) (name : Option CString) :
    Simulates s (.unregister name) := by
  cases name with
  | none => exact ⟨s, rfl, ⟨devs, h⟩, rfl⟩
  | some name =>
    simp only [Simulates, driverStep, driverUnregister, Bindings.step, Bindings.unregister]
    cases hbound : (bindings s).bound name with
    | none =>
      rw [unregisterFrom_absent name h.chain h.length_lt (h.unbound_iff.mp hbound)]
      exact ⟨s, rfl, ⟨devs, h⟩, rfl⟩
    | some d =>
      obtain ⟨hd, hname⟩ := h.bound_iff.mp hbound
      obtain ⟨pre, post, rfl⟩ := List.append_of_mem hd
      -- no other member has the name
      have hother : ∀ e ∈ pre ++ post, (s.info e).name ≠ name :=
        fun e he => hname ▸ h.name_ne he
      have hlisted := h.unlink
      rw [unregisterFrom_present hname h.chain h.length_lt
        (fun e he => hother e (List.mem_append_left _ he)), Option.or_none]
      refine ⟨_, rfl, ⟨_, hlisted⟩, bindings_eq hlisted ?_ (fun name' e => ?_)⟩
      · rw [if_neg (by simp), unlink_info]
        rfl
      · simp only [reduceCtorEq, if_false, unlink_info]
        by_cases hn : name' = name
        · subst hn
          rw [Function.update_self]
          exact iff_of_false (by simp) (fun ⟨he, heq⟩ => hother e he heq)
        · rw [Function.update_of_ne hn, h.bound_iff]
          simp only [List.mem_append, List.mem_cons]
          constructor
          · rintro ⟨he | rfl | he, heq⟩
            · exact ⟨Or.inl he, heq⟩
            · exact absurd (heq.symm.trans hname) hn
            · exact ⟨Or.inr he, heq⟩
          · rintro ⟨he | he, heq⟩
            · exact ⟨Or.inl he, heq⟩
            · exact ⟨Or.inr (Or.inr he), heq⟩

theorem request_simulates (h : Listed s devs) (name : Option CString) (req : Request) :
    Simulates s (.request name req) := by
  have hanswer : driverRequest s name req = some ((bindings s).request name req) := by
    simp only [driverRequest, h.lookup name, Bindings.request, Option.bind_eq_bind, Option.bind_some]
    cases hbound : name.bind (bindings s).bound with
    | none => rfl
    | some d =>
      obtain ⟨name, rfl, hd⟩ := Option.bind_eq_some_iff.mp hbound
      obtain ⟨ops, hops⟩ := Option.isSome_iff_exists.mp (h.ops d (h.bound_iff.mp hd).1)
      simp only [hops, Option.bind_some, show (bindings s).info = s.info from rfl]
      cases req.handler ops with
      | none => rfl
      | some handler => rfl
  exact ⟨s, by rw [driverStep, hanswer]; rfl, ⟨devs, h⟩, rfl⟩

/-- A structure that is not on the list may be filled in. -/
theorem fill_simulates (h : Listed s devs) {info : DeviceInfo κ} {next : Option δ}
    (hd : ∀ name, (bindings s).bound name ≠ some d) : Simulates s (.fill d info next) := by
  have hnot : d ∉ devs := fun hmem => hd (s.info d).name (h.bound_iff.mpr ⟨hmem, rfl⟩)
  have hother : ∀ e ∈ devs, Function.update s.info d info e = s.info e := by
    intro e he
    refine Function.update_of_ne ?_ _ _
    rintro rfl
    exact hnot he
  have hlisted : Listed { s with
      info := Function.update s.info d info, next := Function.update s.next d next } devs := by
    refine ⟨h.chain.update_off hnot next, ?_, fun e he => ?_⟩
    · have hnames : devs.map (fun e => (Function.update s.info d info e).name) =
          devs.map (fun e => (s.info e).name) :=
        List.map_congr_left (fun e he => by rw [hother e he])
      exact hnames ▸ h.names
    · simp only [hother e he]
      exact h.ops e he
  refine ⟨_, rfl, ⟨devs, hlisted⟩, bindings_eq hlisted rfl (fun name e => ?_)⟩
  simp only [Bindings.step]
  rw [h.bound_iff]
  constructor
  · rintro ⟨he, heq⟩
    exact ⟨he, by rw [hother e he]; exact heq⟩
  · rintro ⟨he, heq⟩
    exact ⟨he, by rwa [hother e he] at heq⟩

/-- **Step lemma**: every operation does as the map does. -/
theorem driverStep_simulates (h : ∃ devs, Listed s devs) {op : Op δ κ}
    (hop : FillsUnbound (bindings s) op) : Simulates s op := by
  obtain ⟨devs, h⟩ := h
  cases op with
  | register dev => exact register_simulates h dev
  | unregister name => exact unregister_simulates h name
  | lookup name => exact ⟨s, by rw [driverStep, h.lookup]; rfl, ⟨devs, h⟩, rfl⟩
  | request name req => exact request_simulates h name req
  | fill d info next => exact fill_simulates h hop

/-! ## 5. Every history -/

theorem driverRegister_failed {dev : Option δ} {s' : DriverState δ κ}
    (h : driverRegister s dev = some (kernelFailure, s')) : s' = s := by
  cases dev with
  | none => exact (Prod.mk.inj (Option.some.inj h)).2.symm
  | some d =>
    rw [driverRegister] at h
    split at h
    · exact (Prod.mk.inj (Option.some.inj h)).2.symm
    · obtain ⟨found, -, h⟩ := Option.bind_eq_some_iff.mp h
      cases found with
      | some e => exact (Prod.mk.inj (Option.some.inj h)).2.symm
      | none => exact absurd (Prod.mk.inj (Option.some.inj h)).1 (by decide)

/-- **A failing call changes nothing**, whatever the list looks like. -/
theorem driverStep_failed {op : Op δ κ} {s' : DriverState δ κ}
    (h : driverStep s op = some (.status kernelFailure, s')) : s' = s := by
  cases op with
  | register dev =>
    obtain ⟨⟨r, t⟩, hr, heq⟩ := Option.map_eq_some_iff.mp h
    simp only [Prod.mk.injEq, Answer.status.injEq] at heq
    obtain ⟨rfl, rfl⟩ := heq
    exact driverRegister_failed hr
  | unregister name =>
    obtain ⟨⟨r, t⟩, hr, heq⟩ := Option.map_eq_some_iff.mp h
    simp only [Prod.mk.injEq, Answer.status.injEq] at heq
    obtain ⟨rfl, rfl⟩ := heq
    cases name with
    | none => exact (Prod.mk.inj (Option.some.inj hr)).2.symm
    | some name => exact unregisterFrom_failed hr
  | lookup name =>
    obtain ⟨dev, -, heq⟩ := Option.map_eq_some_iff.mp h
    exact absurd (Prod.mk.inj heq).1 (by simp)
  | request name req =>
    obtain ⟨a, -, heq⟩ := Option.map_eq_some_iff.mp h
    exact (Prod.mk.inj heq).2.symm
  | fill d info next => exact absurd (Prod.mk.inj (Option.some.inj h)).1 (by simp)

/-- **The registry is a finite map.**  From any device structures, after `driver_init`, for every history
in which structures are filled in only while they are not bound: every call answers as the map does; the
list ends, its names are distinct, and it holds exactly what is bound; and a failing call changes
nothing. -/
theorem driver_registry_refines_map (s₀ : DriverState δ κ) (os : List (Op δ κ))
    (hos : Along (fun r op => some (Bindings.step r op).2) FillsUnbound ⟨fun _ => none, s₀.info⟩ os) :
    ∃ s, answers driverStep (driverInit s₀) os =
        some ((ideal Bindings.step ⟨fun _ => none, s₀.info⟩ os).1, s) ∧
      (∃ devs, Chain s.next s.deviceList devs ∧ (devs.map (fun d => (s.info d).name)).Nodup ∧
        ∀ name d, (ideal Bindings.step ⟨fun _ => none, s₀.info⟩ os).2.bound name = some d ↔
          d ∈ devs ∧ (s.info d).name = name) ∧
      ∀ op s', driverStep s op = some (.status kernelFailure, s') → s' = s := by
  have hlisted : Listed (driverInit s₀) [] := ⟨rfl, List.nodup_nil, by simp⟩
  have hempty : bindings (driverInit s₀) = ⟨fun _ => none, s₀.info⟩ :=
    bindings_eq hlisted rfl (fun name d => by simp)
  rw [← hempty] at hos ⊢
  obtain ⟨s, hanswers, ⟨devs, h⟩, habs⟩ := answers_refine (A := bindings)
    (I := fun s => ∃ devs, Listed s devs) (fun s op hs hop => driverStep_simulates hs hop) os
    (driverInit s₀) ⟨[], hlisted⟩ hos
  refine ⟨s, hanswers, ⟨devs, h.chain, h.names, fun name d => ?_⟩, fun op s' => driverStep_failed⟩
  rw [← habs, h.bound_iff]

/-- `null_device`, with its three functions. -/
def nullDevice : DeviceInfo Unit :=
  ⟨⟨[0x6E, 0x75, 0x6C, 0x6C], by decide⟩, some ⟨some (), some (), some ()⟩⟩

/-- Two structures of that name: the second is refused until the first is gone. -/
theorem driver_registry_null_devices : ∃ s,
    answers driverStep (driverInit ⟨fun _ : Bool => nullDevice, fun _ => none, none⟩)
      [.register (some true), .register (some false), .lookup (some nullDevice.name),
        .unregister (some nullDevice.name), .lookup (some nullDevice.name), .register (some false)] =
      some ([.status kernelSuccess, .status kernelFailure, .device (some true), .status kernelSuccess,
        .device none, .status kernelSuccess], s) := by
  obtain ⟨s, hanswers, -⟩ := driver_registry_refines_map
    (⟨fun _ : Bool => nullDevice, fun _ => none, none⟩ : DriverState Bool Unit)
    [.register (some true), .register (some false), .lookup (some nullDevice.name),
      .unregister (some nullDevice.name), .lookup (some nullDevice.name), .register (some false)]
    (by simp [Along, FillsUnbound])
  exact ⟨s, hanswers⟩

end JarvOs.Drivers.Registry
