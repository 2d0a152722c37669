import Mathlib.Logic.Basic

/-!
# Bearer authentication

`AuthConfig` reads two fields of a config: the method, `none` or `bearer`, and an optional
token. `validate_auth` refuses `bearer` without a token. The server interceptor lets every
request through under `none`; under `bearer` it builds `Bearer <token>` and accepts exactly the
requests whose `authorization` metadata is that text. The client interceptor builds the same
text and puts it under `authorization`. Parsing the text as an ASCII metadata value is done by
`tonic`, which is not part of the repository: the interceptors take that test as a parameter,
and every result holds for any test.
-/

set_option autoImplicit false

namespace ProvingService.Auth

/-- `AuthMethod`. -/
inductive AuthMethod where
  | none
  | bearer
  deriving DecidableEq, Repr

/-- What `impl_auth_config!` reads of a config: `auth_method` and `bearer_token`. -/
structure AuthConfig where
  authMethod : AuthMethod
  bearerToken : Option (List Char)
  deriving DecidableEq, Repr

/-- The `tonic::Status` the interceptors refuse a request with. -/
inductive Status where
  | unauthenticated (message : List Char)
  deriving DecidableEq, Repr

/-- A `tonic::Request<()>`: its metadata, ASCII values under lower-case keys. -/
structure Request where
  metadata : List (List Char × List Char)
  deriving DecidableEq, Repr

namespace Request

/-- `req.metadata().get(key)`: the first value under the key. -/
def get (req : Request) (key : List Char) : Option (List Char) :=
  (req.metadata.find? (·.1 == key)).map Prod.snd

/-- `req.metadata_mut().insert(key, value)`: the values under the key replaced by this one. -/
def insert (req : Request) (key value : List Char) : Request :=
  ⟨req.metadata.filter (·.1 != key) ++ [(key, value)]⟩

@[simp] theorem get_insert (req : Request) (key value : List Char) :
    (req.insert key value).get key = some value := by
  have absent : (req.metadata.filter (·.1 != key)).find? (·.1 == key) = none :=
    List.find?_eq_none.mpr fun entry member => by simpa using (List.mem_filter.mp member).2
  simp [get, insert, List.find?_append, absent]

end Request

namespace AuthConfig

/-- `ServiceConfig`'s defaults: `auth_method` is `none` and there is no token. -/
def default : AuthConfig := ⟨.none, none⟩

/-- `AuthConfig::validate_auth`. -/
def validateAuth (cfg : AuthConfig) : Except (List Char) Unit :=
  match cfg.authMethod with
  | .none => .ok ()
  | .bearer =>
    if cfg.bearerToken.isNone then
      .error "Bearer token must be provided when auth_method is 'bearer'.".toList
    else .ok ()

/-- `validate_auth` refuses exactly `bearer` without a token. -/
theorem validateAuth_error_iff (cfg : AuthConfig) :
    (∃ message, cfg.validateAuth = .error message) ↔
      cfg.authMethod = .bearer ∧ cfg.bearerToken = none := by
  obtain ⟨method, token⟩ := cfg
  cases method <;> cases token <;> simp [validateAuth]

theorem validateAuth_default : default.validateAuth = .ok () := rfl

end AuthConfig

/-- The two arguments of `ServiceConfig` the interceptor reads, as `clap` finds them on the
command line or in the environment (`AUTH_METHOD`, `BEARER_TOKEN`): `none` where neither gives
one. -/
structure AuthArgs where
  authMethod : Option AuthMethod
  bearerToken : Option (List Char)
  deriving DecidableEq, Repr

/-- `ServiceConfig::parse` on these arguments. `requires = "auth_method"` refuses a token given
without a method, where the method's default value does not count as given, and a refused
parse exits the process; the method defaults to `none`. -/
def AuthArgs.parse (args : AuthArgs) : Option AuthConfig :=
  match args.authMethod, args.bearerToken with
  | none, some _ => none
  | method, token => some ⟨method.getD .none, token⟩

/-- `clap` refuses exactly a token without a method. -/
theorem AuthArgs.parse_eq_none_iff (args : AuthArgs) :
    args.parse = none ↔ args.authMethod = none ∧ args.bearerToken.isSome := by
  obtain ⟨method, token⟩ := args
  cases method <;> cases token <;> simp [parse]

/-- The configs `clap` parses that `validate_auth` refuses come from `bearer` without a token. -/
theorem AuthArgs.parse_validateAuth_error_iff (args : AuthArgs) :
    (∃ cfg message, args.parse = some cfg ∧ cfg.validateAuth = .error message) ↔
      args = ⟨some .bearer, none⟩ := by
  obtain ⟨method, token⟩ := args
  cases method with
  | none => cases token <;> simp [parse, AuthConfig.validateAuth]
  | some method => cases method <;> cases token <;> simp [parse, AuthConfig.validateAuth]

/-- How the server binary's `main` goes as far as the gRPC server. -/
inductive Start where
  /-- `clap` refused the arguments and exited. -/
  | parseError
  /-- `main` returned the error of connecting to the database. -/
  | dbError (e : List Char)
  /-- The gRPC server runs, and every call passes its interceptor first. -/
  | serving (interceptor : Request → Except Status Request)

/-- `format!("Bearer {}", token)`. -/
def bearerHeader (token : List Char) : List Char := "Bearer ".toList ++ token

theorem bearerHeader_inj {token token' : List Char} (same : bearerHeader token = bearerHeader token') :
    token = token' :=
  List.append_cancel_left same

section Interceptors

-- whether `tonic` parses a text as an ASCII metadata value
variable (parses : List Char → Bool)

/-- The text both interceptors build under `bearer`: the token, refused when there is none
(`ok_or_else`), as `Bearer <token>`, refused when it does not parse (`map_err`). -/
def bearerMetadata : Option (List Char) → Except Status (List Char)
  | none => .error (.unauthenticated "Bearer token not configured".toList)
  | some token =>
    if parses (bearerHeader token) then .ok (bearerHeader token)
    else .error (.unauthenticated "Invalid token format".toList)

/-- `AuthConfig::server_auth_interceptor`, on one request. -/
def serverAuthInterceptor (cfg : AuthConfig) (req : Request) : Except Status Request :=
  match cfg.authMethod with
  | .none => .ok req
  | .bearer => do
    let expectedToken ← bearerMetadata parses cfg.bearerToken
    if req.get "authorization".toList = some expectedToken then pure req
    else throw (.unauthenticated "Invalid or missing auth token".toList)

/-- `AuthConfig::client_auth_interceptor`, on one request. -/
def clientAuthInterceptor (cfg : AuthConfig) (req : Request) : Except Status Request :=
  match cfg.authMethod with
  | .none => .ok req
  | .bearer => do
    let header ← bearerMetadata parses cfg.bearerToken
    pure (req.insert "authorization".toList header)

theorem bearerMetadata_ok {token : Option (List Char)} {header : List Char} :
    bearerMetadata parses token = .ok header ↔
      ∃ configured, token = some configured ∧ header = bearerHeader configured ∧
        parses (bearerHeader configured) = true := by
  cases token with
  | none => exact ⟨nofun, fun ⟨_, stuck, _⟩ => nomatch stuck⟩
  | some configured =>
    simp only [bearerMetadata]
    by_cases parsed : parses (bearerHeader configured) = true
    · rw [if_pos parsed]
      constructor
      · rintro ⟨⟩
        exact ⟨configured, rfl, rfl, parsed⟩
      · rintro ⟨_, ⟨⟩, rfl, -⟩
        rfl
    · rw [if_neg parsed]
      exact ⟨nofun, fun ⟨_, same, _, accepted⟩ => (parsed (Option.some.inj same ▸ accepted)).elim⟩

theorem serverAuthInterceptor_bearer (token : Option (List Char)) (req : Request) :
    serverAuthInterceptor parses ⟨.bearer, token⟩ req =
      (bearerMetadata parses token).bind fun expectedToken =>
        if req.get "authorization".toList = some expectedToken then .ok req
        else .error (.unauthenticated "Invalid or missing auth token".toList) := rfl

/-- The server never changes a request, and lets it through exactly under `none`, or under
`bearer` when its `authorization` is `Bearer <token>` for the configured token. -/
theorem serverAuthInterceptor_ok_iff (cfg : AuthConfig) (req req' : Request) :
    serverAuthInterceptor parses cfg req = .ok req' ↔ req' = req ∧
      (cfg.authMethod = .none ∨ ∃ token, cfg.bearerToken = some token ∧
        parses (bearerHeader token) = true ∧
        req.get "authorization".toList = some (bearerHeader token)) := by
  obtain ⟨method, token⟩ := cfg
  cases method with
  | none =>
    constructor
    · rintro ⟨⟩
      exact ⟨rfl, .inl rfl⟩
    · rintro ⟨rfl, -⟩
      rfl
  | bearer =>
    rw [serverAuthInterceptor_bearer]
    cases built : bearerMetadata parses token with
    | error status =>
      refine ⟨nofun, ?_⟩
      rintro ⟨-, stuck | ⟨configured, same, parsed, -⟩⟩
      · cases stuck
      · have accepted := (bearerMetadata_ok parses).mpr ⟨configured, same, rfl, parsed⟩
        rw [built] at accepted
        cases accepted
    | ok header =>
      obtain ⟨configured, rfl, rfl, parsed⟩ := (bearerMetadata_ok parses).mp built
      by_cases tagged : req.get "authorization".toList = some (bearerHeader configured)
      · simp only [Except.bind, if_pos tagged]
        constructor
        · rintro ⟨⟩
          exact ⟨rfl, .inr ⟨configured, rfl, parsed, tagged⟩⟩
        · rintro ⟨rfl, -⟩
          rfl
      · simp only [Except.bind, if_neg tagged]
        refine ⟨nofun, ?_⟩
        rintro ⟨-, stuck | ⟨_, same, -, found⟩⟩
        · cases stuck
        · exact (tagged (Option.some.inj same ▸ found)).elim

theorem clientAuthInterceptor_bearer (token : Option (List Char)) (req : Request) :
    clientAuthInterceptor parses ⟨.bearer, token⟩ req =
      (bearerMetadata parses token).bind fun header =>
        .ok (req.insert "authorization".toList header) := rfl

/-- Under `bearer` the client sends the request with `Bearer <token>` under `authorization`. -/
theorem clientAuthInterceptor_bearer_ok {token : Option (List Char)} {req sent : Request}
    (tagged : clientAuthInterceptor parses ⟨.bearer, token⟩ req = .ok sent) :
    ∃ configured, token = some configured ∧ parses (bearerHeader configured) = true ∧
      sent = req.insert "authorization".toList (bearerHeader configured) := by
  rw [clientAuthInterceptor_bearer] at tagged
  cases built : bearerMetadata parses token with
  | error status =>
    rw [built] at tagged
    cases tagged
  | ok header =>
    obtain ⟨configured, rfl, rfl, parsed⟩ := (bearerMetadata_ok parses).mp built
    rw [built] at tagged
    cases tagged
    exact ⟨configured, rfl, parsed, rfl⟩

/-- A request a client tagged under `bearer` passes a server under `bearer` exactly when both
are configured with the same token. -/
theorem server_accepts_tagged_iff (client server : AuthConfig) (req sent : Request)
    (clientBearer : client.authMethod = .bearer) (serverBearer : server.authMethod = .bearer)
    (tagged : clientAuthInterceptor parses client req = .ok sent) :
    serverAuthInterceptor parses server sent = .ok sent ↔
      ∃ token, client.bearerToken = some token ∧ server.bearerToken = some token := by
  obtain ⟨method, token⟩ := client
  cases clientBearer
  obtain ⟨configured, rfl, parsed, rfl⟩ := clientAuthInterceptor_bearer_ok parses tagged
  rw [serverAuthInterceptor_ok_iff, Request.get_insert, serverBearer]
  constructor
  · rintro ⟨-, stuck | ⟨expected, same, -, found⟩⟩
    · cases stuck
    · obtain rfl := bearerHeader_inj (Option.some.inj found)
      exact ⟨configured, rfl, same⟩
  · rintro ⟨_, ⟨⟩, same⟩
    exact ⟨rfl, .inr ⟨configured, same, parsed, rfl⟩⟩

theorem server_accepts_tagged_iff_same_token :
    clientAuthInterceptor (fun _ => true) ⟨.bearer, some "token".toList⟩ ⟨[]⟩ =
      .ok ⟨[("authorization".toList, bearerHeader "token".toList)]⟩ ∧
    (serverAuthInterceptor (fun _ => true) ⟨.bearer, some "token".toList⟩
        ⟨[("authorization".toList, bearerHeader "token".toList)]⟩ =
        .ok ⟨[("authorization".toList, bearerHeader "token".toList)]⟩ ↔
      ∃ token, some "token".toList = some token ∧ some "token".toList = some token) :=
  ⟨rfl, server_accepts_tagged_iff _ ⟨.bearer, some "token".toList⟩ ⟨.bearer, some "token".toList⟩
    ⟨[]⟩ _ rfl rfl rfl⟩

/-- A config `validate_auth` refuses, `bearer` without a token, has the server refuse every
request as not configured; under a config it accepts the server never refuses so. -/
theorem validateAuth_error_iff_refuses_all (cfg : AuthConfig) :
    (∃ message, cfg.validateAuth = .error message) ↔
      ∀ req, serverAuthInterceptor parses cfg req =
        .error (.unauthenticated "Bearer token not configured".toList) := by
  rw [AuthConfig.validateAuth_error_iff]
  obtain ⟨method, token⟩ := cfg
  constructor
  · rintro ⟨rfl, rfl⟩ req
    rfl
  · intro refused
    have atEmpty := refused ⟨[]⟩
    cases method with
    | none => cases atEmpty
    | bearer =>
      cases token with
      | none => exact ⟨rfl, rfl⟩
      | some configured =>
        rw [serverAuthInterceptor_bearer] at atEmpty
        simp only [bearerMetadata] at atEmpty
        split at atEmpty
        · cases atEmpty
        · exact absurd (Status.unauthenticated.inj (Except.error.inj atEmpty)) (by decide)

/-- The server binary's `main`: parse the config, never validate it, connect to the database,
and serve under the parsed config's `server_auth_interceptor`. -/
def serverMain (connect : Except (List Char) Unit) (args : AuthArgs) : Start :=
  match args.parse with
  | none => .parseError
  | some cfg =>
    match connect with
    | .error e => .dbError e
    | .ok () => .serving (serverAuthInterceptor parses cfg)

/-- The server binary never calls `validate`. `clap` refuses only a token given without a
method, so the one config `validate_auth` would refuse, `bearer` without a token, is parsed;
once the database connects, the server then runs under an interceptor that refuses every call
as not configured, and under no other arguments does it refuse every call so. -/
theorem server_starts_unvalidated (args : AuthArgs) :
    (args.parse = none ↔ args.authMethod = none ∧ args.bearerToken.isSome) ∧
    ((∃ cfg message, args.parse = some cfg ∧ cfg.validateAuth = .error message) ↔
      args = ⟨some .bearer, none⟩) ∧
    ((∃ cfg message, args.parse = some cfg ∧ cfg.validateAuth = .error message) ↔
      ∃ interceptor, serverMain parses (.ok ()) args = .serving interceptor ∧
        ∀ req, interceptor req = .error (.unauthenticated "Bearer token not configured".toList)) := by
  refine ⟨args.parse_eq_none_iff, args.parse_validateAuth_error_iff, ?_⟩
  cases parsed : args.parse with
  | none => simp [serverMain, parsed]
  | some cfg =>
    simp [serverMain, parsed, validateAuth_error_iff_refuses_all parses cfg]

end Interceptors

end ProvingService.Auth
