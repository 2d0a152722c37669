import ProvingService.Service.Results
import ProvingService.Onchain.GnarkProof

/-!
# Registering apps

`AppManager::set_app` builds the app with `App::new`, whose id is the text of the verifying
key's hash, `vk.hash_str_via_bn254()`, asserted to be 66 characters long and cut after its
first two, the `0x`. It refuses an id `get_app` already finds and otherwise inserts the row;
`GrpcService::register_app` answers the id, or `Status::internal` with the error's text. The
hash is computed by `pico_vm` from the compiled program and is a parameter here, as are what
`get_app`'s `SELECT` and the `INSERT` return. A panic is an outer `Except.error` carrying its
message.

The table is the list of app ids of `Service/Results.lean`, and `get_app` is the one modelled
there, so a registration composes with `prove_task`.
-/

set_option autoImplicit false

namespace ProvingService.Apps

/-- The message of the `assert_eq!` in `App::new`. -/
def appIdPanic : String := "app-id must be an uint256 starting with 0x"

/-- `App::new`, for the id: the hash text without its first two characters, once it is 66
characters long. -/
def App.new (hash : List Char) : Except String (List Char) :=
  if hash.length = 66 then .ok (hash.drop 2) else .error appIdPanic

/-- `bin/gen_app_id`: prints the id `App::new` makes as `0x{app_id}`. -/
def genAppId (hash : List Char) : Except String (List Char) :=
  (App.new hash).map ("0x".toList ++ ·)

/-- `AppManager::set_app` on the table of ids, with what `get_app`'s `SELECT` and the `INSERT`
returned: the inner `Except` is the `anyhow::Result` it returns, the outer one the panic of
`App::new`. -/
def setApp (apps : List (List Char)) (hash : List Char) (select insert : Except (List Char) Unit) :
    Except String (Except (List Char) (List (List Char) × List Char)) := do
  let appId ← App.new hash
  match Results.getApp apps appId select with
  | .error e => return .error e
  | .ok found =>
    if found.isSome then return .error ("app already exists ".toList ++ appId)
    return insert.map fun _ => (apps ++ [appId], appId)

/-- `GrpcService::register_app`: the new table and the id it answers, or `Status::internal`. -/
def registerApp (apps : List (List Char)) (hash : List Char) (select insert : Except (List Char) Unit) :
    Except String (Except Results.Status (List (List Char) × List Char)) :=
  (setApp apps hash select insert).map fun result =>
    result.mapError fun error => .internal ("failed to register app: ".toList ++ error)

/-- A `register_app` call: the verifying key's hash, and what the `SELECT` and the `INSERT`
return. -/
abbrev RegisterCall := List Char × Except (List Char) Unit × Except (List Char) Unit

/-- The table after a `register_app` call: the row is there exactly when the call answers. -/
def afterRegister (apps : List (List Char)) (call : RegisterCall) : List (List Char) :=
  match registerApp apps call.1 call.2.1 call.2.2 with
  | .ok (.ok (apps', _)) => apps'
  | _ => apps

/-- What `vk.hash_str_via_bn254()` writes: `0x` and the 64 hex digits of a `uint256`. -/
def HashText (hash : List Char) : Prop :=
  ∃ digits, hash = '0' :: 'x' :: digits ∧ digits.length = 64 ∧
    ∀ c ∈ digits, (Onchain.hexDigitValue? c).isSome

/-! ## Lookups of hex ids -/

section Lookup

variable {digits : List Char}

theorem find?_beq (apps : List (List Char)) (appId : List Char) :
    apps.find? (· == appId) = if appId ∈ apps then some appId else none := by
  induction apps with
  | nil => rfl
  | cons app apps ih =>
    by_cases same : app = appId
    · simp [same]
    · simp [List.find?_cons, same, ih, Ne.symm same]

/-- Hex digits do not start with `0x`, so `get_app` looks them up as they are. -/
theorem stripPrefixOr_hex (hex : ∀ c ∈ digits, (Onchain.hexDigitValue? c).isSome) :
    Results.stripPrefixOr "0x".toList digits = digits := by
  have noX : 'x' ∉ digits := fun member => by
    obtain ⟨digit, found⟩ := Option.isSome_iff_exists.mp (hex 'x' member)
    exact (Onchain.hexDigitValue?_spec found).2.2.2.2.2 rfl
  rw [Results.stripPrefixOr, if_neg]
  intro prefixed
  exact noX ((List.isPrefixOf_iff_prefix.mp prefixed).subset (by decide))

theorem stripPrefixOr_0x (digits : List Char) :
    Results.stripPrefixOr "0x".toList ('0' :: 'x' :: digits) = digits := by
  simp [Results.stripPrefixOr, List.isPrefixOf]

theorem getApp_hex (apps : List (List Char)) (hex : ∀ c ∈ digits, (Onchain.hexDigitValue? c).isSome) :
    Results.getApp apps digits (.ok ()) = .ok (if digits ∈ apps then some digits else none) := by
  rw [Results.getApp, stripPrefixOr_hex hex, find?_beq]
  rfl

theorem getApp_0x (apps : List (List Char)) (digits : List Char) :
    Results.getApp apps ('0' :: 'x' :: digits) (.ok ()) =
      .ok (if digits ∈ apps then some digits else none) := by
  rw [Results.getApp, stripPrefixOr_0x, find?_beq]
  rfl

end Lookup

/-! ## One registration -/

section Register

variable {digits : List Char}

theorem App.new_digits (sized : digits.length = 64) : App.new ('0' :: 'x' :: digits) = .ok digits := by
  simp [App.new, sized]

/-- Whatever it is called with, `set_app` adds the row it answers to the table. -/
theorem registerApp_table {apps apps' : List (List Char)} {hash appId : List Char}
    {select insert : Except (List Char) Unit}
    (answered : registerApp apps hash select insert = .ok (.ok (apps', appId))) :
    apps' = apps ++ [appId] := by
  cases created : App.new hash with
  | error _ => simp [registerApp, setApp, created, bind, Except.bind, Except.map] at answered
  | ok id =>
    cases found : Results.getApp apps id select with
    | error _ =>
      simp [registerApp, setApp, created, found, bind, Except.bind, Except.map, Except.mapError,
        pure, Except.pure] at answered
    | ok found' =>
      cases found' <;> cases insert <;>
        simp [registerApp, setApp, created, found, bind, Except.bind, Except.map, Except.mapError,
          pure, Except.pure] at answered
      obtain ⟨rfl, rfl⟩ := answered
      rfl

/-- A failed read refuses the registration with the read's error. -/
theorem registerApp_select_error (apps : List (List Char)) (e : List Char)
    (insert : Except (List Char) Unit) (sized : digits.length = 64) :
    registerApp apps ('0' :: 'x' :: digits) (.error e) insert =
      .ok (.error (.internal ("failed to register app: ".toList ++ e))) := by
  simp only [registerApp, setApp, App.new_digits sized, bind, Except.bind]
  rfl

/-- `register_app` on a hash of the expected form, its read succeeding: refused as existing
exactly when the id is in the table, otherwise the row added when the `INSERT` succeeds. -/
theorem registerApp_digits (apps : List (List Char)) (insert : Except (List Char) Unit)
    (sized : digits.length = 64) (hex : ∀ c ∈ digits, (Onchain.hexDigitValue? c).isSome) :
    registerApp apps ('0' :: 'x' :: digits) (.ok ()) insert =
      .ok (if digits ∈ apps then
          .error (.internal ("failed to register app: ".toList ++ ("app already exists ".toList ++ digits)))
        else (insert.mapError fun error => Results.Status.internal ("failed to register app: ".toList ++ error)).map
          fun _ => (apps ++ [digits], digits)) := by
  simp only [registerApp, setApp, App.new_digits sized, getApp_hex apps hex, bind, Except.bind]
  by_cases registered : digits ∈ apps
  · simp only [if_pos registered, Option.isSome_some, if_true]
    rfl
  · simp only [if_neg registered, Option.isSome_none, Bool.false_eq_true, if_false]
    cases insert <;> rfl

theorem registerApp_answered {apps apps' : List (List Char)} {hash appId : List Char}
    {select insert : Except (List Char) Unit} (text : HashText hash)
    (answered : registerApp apps hash select insert = .ok (.ok (apps', appId))) :
    select = .ok () ∧ hash = '0' :: 'x' :: appId ∧ appId.length = 64 ∧ appId ∉ apps ∧
      apps' = apps ++ [appId] ∧ ∀ c ∈ appId, (Onchain.hexDigitValue? c).isSome := by
  obtain ⟨digits, rfl, sized, hex⟩ := text
  cases select with
  | error e =>
    rw [registerApp_select_error apps e insert sized] at answered
    cases answered
  | ok u =>
    rw [registerApp_digits apps insert sized hex] at answered
    by_cases registered : digits ∈ apps
    · rw [if_pos registered] at answered
      cases answered
    · rw [if_neg registered] at answered
      cases insert with
      | error _ => cases answered
      | ok _ =>
        cases answered
        exact ⟨rfl, rfl, sized, registered, rfl, hex⟩

/-- An id in the table stays there, whatever `register_app` calls follow. -/
theorem mem_foldl_afterRegister {apps : List (List Char)} {appId : List Char} (member : appId ∈ apps) :
    ∀ calls : List RegisterCall, appId ∈ calls.foldl afterRegister apps
  | [] => member
  | call :: calls => by
    refine mem_foldl_afterRegister ?_ calls
    unfold afterRegister
    split
    · rename_i answered
      rw [registerApp_table answered]
      exact List.mem_append_left _ member
    · exact member

/-- An app `register_app` answers is in the table under the id it answered, the hash without
its `0x`, and stays there whatever registrations follow; `bin/gen_app_id` prints the hash
itself. `prove_task` takes tasks for the app under either text in every service whose table
holds the id, its read of the table succeeding, and queues them with that app. -/
theorem registered_app_accepted {apps apps' : List (List Char)} {hash appId : List Char}
    {select insert : Except (List Char) Unit} (text : HashText hash)
    (answered : registerApp apps hash select insert = .ok (.ok (apps', appId))) :
    genAppId hash = .ok hash ∧ apps' = apps ++ [appId] ∧
      (∀ calls : List RegisterCall, appId ∈ calls.foldl afterRegister apps') ∧
      ∀ (s : Results.Service) (req : Results.ProveTaskRequest), appId ∈ s.apps →
        (req.appId = appId ∨ req.appId = hash) →
        s.proveTask req (.ok ()) = .ok { s with tasks := s.tasks ++
          [⟨⟨req.appId, req.taskId⟩, appId, req.inputs, req.useGpu.getD false⟩] } := by
  obtain ⟨-, rfl, sized, -, added, hex⟩ := registerApp_answered text answered
  have found : appId ∈ apps' := added ▸ List.mem_append_right _ (List.mem_singleton_self _)
  refine ⟨by rw [genAppId, App.new_digits sized]; rfl, added, mem_foldl_afterRegister found,
    fun s req table sent => ?_⟩
  have resolved : Results.requireApp s.apps req.appId (.ok ()) = .ok appId := by
    rcases sent with same | same <;> rw [same, Results.requireApp]
    · rw [getApp_hex _ hex, if_pos table]
    · rw [getApp_0x, if_pos table]
  simp only [Results.Service.proveTask, resolved]
  rfl

/-- The hash of all zeros, registered into an empty table. -/
theorem registered_app_accepted_zero_hash :
    genAppId ('0' :: 'x' :: List.replicate 64 '0') = .ok ('0' :: 'x' :: List.replicate 64 '0') ∧
      [List.replicate 64 '0'] = [] ++ [List.replicate 64 '0'] ∧
      (∀ calls : List RegisterCall, List.replicate 64 '0' ∈ calls.foldl afterRegister [List.replicate 64 '0']) ∧
      ∀ (s : Results.Service) (req : Results.ProveTaskRequest), List.replicate 64 '0' ∈ s.apps →
        (req.appId = List.replicate 64 '0' ∨ req.appId = '0' :: 'x' :: List.replicate 64 '0') →
        s.proveTask req (.ok ()) = .ok { s with tasks := s.tasks ++
          [⟨⟨req.appId, req.taskId⟩, List.replicate 64 '0', req.inputs, req.useGpu.getD false⟩] } :=
  @registered_app_accepted [] _ _ _ (.ok ()) (.ok ()) ⟨_, rfl, rfl, by decide⟩ rfl

/-- Once a program is registered, every later registration of it, after any registrations in
between, is refused and leaves the table as it was: as existing when its read of the table
succeeds, or with the read's error. -/
theorem register_twice_refused {apps apps' : List (List Char)} {hash appId : List Char}
    {select insert : Except (List Char) Unit} (text : HashText hash)
    (answered : registerApp apps hash select insert = .ok (.ok (apps', appId)))
    (calls : List RegisterCall) (select' insert' : Except (List Char) Unit) :
    (∃ reason, registerApp (calls.foldl afterRegister apps') hash select' insert' =
        .ok (.error (.internal ("failed to register app: ".toList ++ reason))) ∧
      (select' = .ok () → reason = "app already exists ".toList ++ appId)) ∧
    afterRegister (calls.foldl afterRegister apps') (hash, select', insert') =
      calls.foldl afterRegister apps' := by
  obtain ⟨-, rfl, sized, -, rfl, hex⟩ := registerApp_answered text answered
  have kept := mem_foldl_afterRegister (List.mem_append_right apps (List.mem_singleton_self appId)) calls
  have refused : ∃ reason, registerApp (calls.foldl afterRegister (apps ++ [appId]))
      ('0' :: 'x' :: appId) select' insert' =
        .ok (.error (.internal ("failed to register app: ".toList ++ reason))) ∧
      (select' = .ok () → reason = "app already exists ".toList ++ appId) := by
    cases select' with
    | error e => exact ⟨e, registerApp_select_error _ e insert' sized, nofun⟩
    | ok u =>
      refine ⟨_, ?_, fun _ => rfl⟩
      rw [registerApp_digits _ insert' sized hex, if_pos kept]
  obtain ⟨reason, again, already⟩ := refused
  exact ⟨⟨reason, again, already⟩, by rw [afterRegister, again]⟩

/-- The hash of all zeros registered, then registered again after another registration. -/
theorem register_twice_refused_zero_hash :
    (∃ reason, registerApp ([('0' :: 'x' :: List.replicate 64 '1', .ok (), .ok ())].foldl
        afterRegister [List.replicate 64 '0']) ('0' :: 'x' :: List.replicate 64 '0') (.ok ()) (.ok ()) =
        .ok (.error (.internal ("failed to register app: ".toList ++ reason))) ∧
      ((.ok () : Except (List Char) Unit) = .ok () →
        reason = "app already exists ".toList ++ List.replicate 64 '0')) ∧
    afterRegister ([('0' :: 'x' :: List.replicate 64 '1', .ok (), .ok ())].foldl afterRegister
        [List.replicate 64 '0']) ('0' :: 'x' :: List.replicate 64 '0', .ok (), .ok ()) =
      [('0' :: 'x' :: List.replicate 64 '1', .ok (), .ok ())].foldl afterRegister
        [List.replicate 64 '0'] :=
  @register_twice_refused [] _ _ _ (.ok ()) (.ok ()) ⟨List.replicate 64 '0', rfl, rfl, by decide⟩ rfl
    [('0' :: 'x' :: List.replicate 64 '1', .ok (), .ok ())] (.ok ()) (.ok ())

end Register

/-! ## Runs of registrations -/

end ProvingService.Apps
