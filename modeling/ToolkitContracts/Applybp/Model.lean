import ToolkitContracts.Chain.Contract

/-!
# flon.applybp

The profiles of block producers. An account submits its own profile and updates it; the admin
submits profiles for others, and switches producers on and off. A profile is never deleted.
-/

namespace ToolkitContracts
namespace Applybp

/-- The codes of `enum class err` that the contract reports. -/
inductive Err where
  | recordNotFound
  | recordExisting
  | paramError
  | noAuth
  | oversized
  | accountInvalid
  | statusError

/-- The number of an error. -/
def Err.code : Err → ℕ
  | .recordNotFound => 1
  | .recordExisting => 2
  | .paramError => 5
  | .noAuth => 8
  | .oversized => 11
  | .accountInvalid => 15
  | .statusError => 18

/-- `MAX_LOGO_SIZE`. -/
def maxLogoSize : ℕ := 512

/-- `MAX_TITLE_SIZE`. -/
def maxTitleSize : ℕ := 2048

/-- `ProducerStatus::DISABLE`. -/
def disable : Name := .lit "disable"

/-- `ProducerStatus::ENABLE`. -/
def enable : Name := .lit "enable"

/-! ## Tables -/

/-- `global_t`: nobody is the admin before `init`. -/
structure Global where
  admin : Name := ⟨0⟩

/-- What an account says of itself: the parameters that `applybp`, `updatebp` and `addproducer` have
in common. -/
structure Profile where
  logoUri : List Char
  orgName : List Char
  orgInfo : List Char
  daoCode : Name
  rewardSharedPlan : List Char
  manifesto : List Char
  issuancePlan : List Char
deriving DecidableEq

/-- `producer_t`. The two times are `time_point_sec`. -/
structure Producer extends Profile where
  owner : Name
  status : Name
  createdAt : ℕ
  updatedAt : ℕ
deriving DecidableEq

def Producer.primaryKey (r : Producer) : ℕ := r.owner.raw

/-- The tables of the contract. -/
structure State where
  gstate : Global
  producers : Table Producer.primaryKey

/-- The tables of a newly deployed contract. -/
def State.init : State := ⟨{}, .empty⟩

section Actions
variable (self : Name)

/-- `CHECKC`, which puts the account of the contract before the text. -/
def checkSelf (p : Prop) [Decidable p] (err : Err) (msg : String) : Except Abort Unit :=
  checkc p err.code ("[[" ++ .ofList self.toText ++ "]] " ++ msg)

/-- A check passes exactly when its condition holds. -/
theorem checkSelf_eq_ok {p : Prop} [Decidable p] {err : Err} {msg : String} {u : Unit} :
    checkSelf self p err msg = .ok u ↔ p := checkc_eq_ok

/-- The contract names its admin. -/
def init (ctx : Ctx) (admin : Name) (s : State) : Except Abort (Effect State) := do
  ctx.requireAuth self
  checkSelf self (ctx.isAccount admin = true) .accountInvalid
    ("admin invalid:" ++ .ofList admin.toText)
  return ({ s with gstate := { s.gstate with admin } }, [])

/-- A check of `_set_producer` on the size of a text. -/
def checkSize (text : List Char) (size : ℕ) (msg : String) : Except Abort Unit :=
  checkSelf self (text.length ≤ size) .oversized msg

/-- `_set_producer`. -/
def setProducer (ctx : Ctx) (owner : Name) (p : Profile) (s : State) : Except Abort State := do
  checkSelf self (ctx.isAccount owner = true) .accountInvalid
    ("owner invalid:" ++ .ofList owner.toText)
  checkSize self p.logoUri maxLogoSize ("logo size must be <= " ++ toString maxLogoSize)
  checkSize self p.orgName maxTitleSize ("org_name size must be <= " ++ toString maxTitleSize)
  checkSize self p.orgInfo maxTitleSize ("org_info size must be <= " ++ toString maxTitleSize)
  checkSize self p.manifesto maxTitleSize ("manifesto size must be <= " ++ toString maxTitleSize)
  checkSize self p.issuancePlan maxTitleSize
    ("issuance_plan size must be <= " ++ toString maxTitleSize)
  checkSize self p.rewardSharedPlan maxTitleSize "reward_shared_ratio is too large than 10000"
  let now := ctx.now.secSinceEpoch
  let row : Producer := match s.producers.find? owner.raw with
    | none => { p with owner, createdAt := now, status := disable, updatedAt := now }
    | some row => { row with toProfile := p, updatedAt := now }
  return { s with producers := s.producers.put row }

/-- An account submits its first profile. -/
def applybp (ctx : Ctx) (owner : Name) (p : Profile) (s : State) : Except Abort (Effect State) := do
  ctx.requireAuth owner
  checkSelf self ((s.producers.find? owner.raw).isNone = true) .recordExisting
    ("Application submitted:" ++ .ofList owner.toText)
  let s ← setProducer self ctx owner p s
  return (s, [])

/-- An account submits its profile again. -/
def updatebp (ctx : Ctx) (owner : Name) (p : Profile) (s : State) :
    Except Abort (Effect State) := do
  ctx.requireAuth owner
  checkSelf self ((s.producers.find? owner.raw).isSome = true) .recordNotFound
    ("producer not found:" ++ .ofList owner.toText)
  let s ← setProducer self ctx owner p s
  return (s, [])

/-- The producer may exist or not. -/
def addproducer (ctx : Ctx) (submiter owner : Name) (p : Profile) (s : State) :
    Except Abort (Effect State) := do
  ctx.requireAuth submiter
  checkSelf self (submiter = s.gstate.admin) .noAuth "Missing required authority of admin"
  let s ← setProducer self ctx owner p s
  return (s, [])

/-- The admin switches a producer on or off. -/
def setstatus (ctx : Ctx) (submiter owner status : Name) (s : State) :
    Except Abort (Effect State) := do
  ctx.requireAuth submiter
  checkSelf self (submiter = s.gstate.admin) .noAuth "Missing required authority of admin"
  match s.producers.find? owner.raw with
  | none => .error ⟨Err.code .recordNotFound,
      "[[" ++ .ofList self.toText ++ "]] " ++ ("producer not found:" ++ .ofList owner.toText)⟩
  | some row => do
    checkSelf self (row.status ≠ status) .statusError "No changes"
    checkSelf self (status = enable ∨ status = disable) .paramError "Unsupported state"
    -- the row exists, so the branch of `db::set` for a new one is never taken
    let row := { row with status, updatedAt := ctx.now.secSinceEpoch }
    return ({ s with producers := s.producers.put row }, [])

end Actions

/-! ## The contract -/

/-- The actions of the contract. -/
inductive Action where
  | init (admin : Name)
  | applybp (owner : Name) (p : Profile)
  | updatebp (owner : Name) (p : Profile)
  | addproducer (submiter owner : Name) (p : Profile)
  | setstatus (submiter owner status : Name)

def exec (self : Name) (ctx : Ctx) : Action → State → Except Abort (Effect State)
  | .init admin => init self ctx admin
  | .applybp owner p => applybp self ctx owner p
  | .updatebp owner p => updatebp self ctx owner p
  | .addproducer submiter owner p => addproducer self ctx submiter owner p
  | .setstatus submiter owner status => setstatus self ctx submiter owner status

/-- flon.applybp deployed at `self`; it has no notification handler. -/
def contract (self : Name) : Contract State Action :=
  ⟨self, fun _ _ s => .ok (s, []), exec self⟩

/-- The world right after deployment: no rows, no tokens. -/
def genesis (clock : TimePoint) : World State := ⟨.init, fun _ => 0, clock⟩

/-! ## What an action does -/

/-- The texts of a profile keep to their sizes. -/
structure Profile.Fits (p : Profile) : Prop where
  logoUri : p.logoUri.length ≤ maxLogoSize
  orgName : p.orgName.length ≤ maxTitleSize
  orgInfo : p.orgInfo.length ≤ maxTitleSize
  manifesto : p.manifesto.length ≤ maxTitleSize
  issuancePlan : p.issuancePlan.length ≤ maxTitleSize
  rewardSharedPlan : p.rewardSharedPlan.length ≤ maxTitleSize

/-- The row of an owner after a profile is submitted. -/
def submitted (now : ℕ) (owner : Name) (p : Profile) : Option Producer → Producer
  | none => { p with owner, createdAt := now, status := disable, updatedAt := now }
  | some row => { row with toProfile := p, updatedAt := now }

section Cases
variable {self owner submiter status : Name} {ctx : Ctx} {p : Profile} {s : State}
  {e : Effect State}

/-- `_set_producer` asks for an account and for texts of the right size. -/
theorem setProducer_eq_ok {s' : State} : setProducer self ctx owner p s = .ok s' ↔
    ctx.isAccount owner = true ∧ p.Fits ∧ s' = { s with
      producers := s.producers.put (submitted ctx.now.secSinceEpoch owner p
        (s.producers.find? owner.raw)) } := by
  have hrow : (match s.producers.find? owner.raw with
      | none => { p with
          owner, createdAt := ctx.now.secSinceEpoch, status := disable,
          updatedAt := ctx.now.secSinceEpoch }
      | some row => { row with toProfile := p, updatedAt := ctx.now.secSinceEpoch } : Producer)
      = submitted ctx.now.secSinceEpoch owner p (s.producers.find? owner.raw) := by
    cases s.producers.find? owner.raw with
    | none => rfl
    | some row => rfl
  unfold setProducer checkSize
  simp only [bind_eq_ok, checkSelf_eq_ok, exists_const, pure_eq_ok, hrow]
  constructor
  · rintro ⟨haccount, h1, h2, h3, h4, h5, h6, rfl⟩
    exact ⟨haccount, ⟨h1, h2, h3, h4, h5, h6⟩, rfl⟩
  · rintro ⟨haccount, ⟨h1, h2, h3, h4, h5, h6⟩, rfl⟩
    exact ⟨haccount, h1, h2, h3, h4, h5, h6, rfl⟩

theorem init_eq_ok {admin : Name} : exec self ctx (.init admin) s = .ok e ↔
    ctx.hasAuth self = true ∧ ctx.isAccount admin = true ∧
      e = ({ s with gstate := { s.gstate with admin } }, []) := by
  simp only [exec, init, bind_eq_ok, Ctx.requireAuth_eq_ok, checkSelf_eq_ok, exists_const,
    pure_eq_ok, @eq_comm _ e]

/-- Only an account without a row may apply, with its own signature. -/
theorem applybp_eq_ok : exec self ctx (.applybp owner p) s = .ok e ↔
    ctx.hasAuth owner = true ∧ s.producers.find? owner.raw = none ∧
      ∃ s', setProducer self ctx owner p s = .ok s' ∧ e = (s', []) := by
  simp only [exec, applybp, bind_eq_ok, Ctx.requireAuth_eq_ok, checkSelf_eq_ok, exists_const,
    pure_eq_ok, Option.isNone_iff_eq_none, @eq_comm _ e]

/-- Only an account with a row may update, with its own signature. -/
theorem updatebp_eq_ok : exec self ctx (.updatebp owner p) s = .ok e ↔
    ctx.hasAuth owner = true ∧ (s.producers.find? owner.raw).isSome = true ∧
      ∃ s', setProducer self ctx owner p s = .ok s' ∧ e = (s', []) := by
  simp only [exec, updatebp, bind_eq_ok, Ctx.requireAuth_eq_ok, checkSelf_eq_ok, exists_const,
    pure_eq_ok, @eq_comm _ e]

/-- The admin submits for anyone. -/
theorem addproducer_eq_ok : exec self ctx (.addproducer submiter owner p) s = .ok e ↔
    ctx.hasAuth submiter = true ∧ submiter = s.gstate.admin ∧
      ∃ s', setProducer self ctx owner p s = .ok s' ∧ e = (s', []) := by
  simp only [exec, addproducer, bind_eq_ok, Ctx.requireAuth_eq_ok, checkSelf_eq_ok, exists_const,
    pure_eq_ok, @eq_comm _ e]

/-- The admin switches a stored producer to the other one of the two states. -/
theorem setstatus_eq_ok : exec self ctx (.setstatus submiter owner status) s = .ok e ↔
    ctx.hasAuth submiter = true ∧ submiter = s.gstate.admin ∧
      ∃ row, s.producers.find? owner.raw = some row ∧ row.status ≠ status ∧
        (status = enable ∨ status = disable) ∧
        e = ({ s with producers :=
          s.producers.put { row with status, updatedAt := ctx.now.secSinceEpoch } }, []) := by
  simp only [exec, setstatus, bind_eq_ok, Ctx.requireAuth_eq_ok, checkSelf_eq_ok, exists_const]
  refine and_congr_right fun _ => and_congr_right fun _ => ?_
  cases s.producers.find? owner.raw with
  | none => simp
  | some row =>
    simp only [bind_eq_ok, checkSelf_eq_ok, exists_const, pure_eq_ok, Option.some.injEq,
      exists_eq_left', @eq_comm _ e]

end Cases
end Applybp
end ToolkitContracts
