import ToolkitContracts.Blindbox.Stored
import ToolkitContracts.Blindbox.World

/-!
# A contract that never gets a booth

`createbooth` and the first deposit of a booth store their rows with `_db.set`, which only replaces
rows. A row with a new key is therefore never stored: booths and boxes disappear, and none ever
appears. A newly deployed contract has none, so it sells nothing and refuses every transfer that is
sent to it.
-/

namespace ToolkitContracts
namespace Blindbox

section Moves
variable {self : Name} {env : Env} {s s' : State} {i : Input} {outs : List Out} {boothId : ℕ}

/-- Stored rows had their keys before. -/
structure Fewer (s s' : State) : Prop where
  booths : ∀ boothId, s.booths.find? boothId = none → s'.booths.find? boothId = none
  boxes : ∀ boothId, s.boxes.find? boothId = none → s'.boxes.find? boothId = none

theorem Fewer.refl (s : State) : Fewer s s := ⟨fun _ h => h, fun _ h => h⟩

theorem Fewer.trans {s'' : State} (h : Fewer s s') (h' : Fewer s' s'') : Fewer s s'' :=
  ⟨fun boothId hb => h'.booths boothId (h.booths boothId hb),
    fun boothId hb => h'.boxes boothId (h.boxes boothId hb)⟩

/-- Replacing a row brings no new key. -/
theorem find?_put_old {ρ : Type} {key : ρ → ℕ} {t : Table key} {r old : ρ} {k : ℕ}
    (hold : t.find? (key r) = some old) (hk : t.find? k = none) : (t.put r).find? k = none := by
  rw [Table.find?_put, if_neg, hk]
  rintro rfl
  rw [hold] at hk
  cases hk

theorem find?_erase_old {ρ : Type} {key : ρ → ℕ} {t : Table key} {j k : ℕ}
    (hk : t.find? k = none) : (t.erase j).find? k = none := by
  rw [Table.find?_erase, hk, ite_self]

/-- The draws of a purchase replace the rows of a booth and of its box. -/
theorem fewer_of_drawEach {owner : Name} {count j : ℕ} {acc acc' : State × Booth × Bought}
    (h : drawEach env owner count j acc = .ok acc') : Fewer acc.1 acc'.1 := by
  induction count generalizing j acc with
  | zero =>
    rw [drawEach, Except.ok.injEq] at h
    rw [h]
    exact .refl _
  | succ count ih =>
    obtain ⟨s, booth, bought⟩ := acc
    simp only [drawEach, oneNft, bind_eq_ok, require_eq_ok, dbcSet_eq_ok, pure_eq_ok] at h
    obtain ⟨⟨s₁, booth₁, nft⟩, hone, bought₁, -, hrest⟩ := h
    obtain ⟨box, -, randIndex, -, e, -, boxes, ⟨⟨oldBox, hbox⟩, rfl⟩, booths, ⟨⟨oldBooth, hbooth⟩, rfl⟩,
      hs₁⟩ := hone
    obtain ⟨rfl, -⟩ := Prod.mk.inj hs₁
    refine Fewer.trans ⟨fun k hk => ?_, fun k hk => ?_⟩ (ih hrest)
    · exact find?_put_old hbooth hk
    · exact find?_put_old hbox hk

/-- No input stores a row with a new key. -/
theorem fewer_of_move (hm : Move self env s i s' outs) : Fewer s s' := by
  cases hm with
  | ignoreToken n hn => exact .refl s
  | ignoreNtoken n hn => exact .refl s
  | setGlobal a gstate ha => exact ⟨fun _ h => h, fun _ h => h⟩
  | overwrite a ha gstate old booth hold hid hnum hkinds =>
    exact ⟨fun k hk => find?_put_old (hid ▸ hold) hk, fun _ h => h⟩
  | touch a ha old booth hold hnum hkinds =>
    exact ⟨fun k hk => find?_put_old hold hk, fun _ h => h⟩
  | close owner boothId booth box hbooth hbox =>
    exact ⟨fun k hk => find?_erase_old hk, fun k hk => find?_erase_old hk⟩
  | delbox boothId nsymb box hbox =>
    have hid : box.boothId = boothId := (Table.find?_eq_some.mp hbox).2
    exact ⟨fun _ h => h, fun k hk => find?_put_old (hid ▸ hbox) hk⟩
  | fixbox boothId nfts box hbox =>
    have hid : box.boothId = boothId := (Table.find?_eq_some.mp hbox).2
    exact ⟨fun _ h => h, fun k hk => find?_put_old (hid ▸ hbox) hk⟩
  | depositNothing n boothId booth hallowed hnone =>
    have hid : booth.id = boothId := (Table.find?_eq_some.mp hallowed.found).2
    exact ⟨fun k hk => find?_put_old (hid ▸ hallowed.found) hk, fun _ h => h⟩
  | deposit n boothId booth box s₁ num kinds hallowed hpos hbox hloop hroom =>
    have hid : booth.id = boothId := (Table.find?_eq_some.mp hallowed.found).2
    refine ⟨fun k hk => find?_put_old (hid ▸ hallowed.found) hk, fun k hk => ?_⟩
    by_cases hk' : k = boothId
    · rw [hk', hbox] at hk
      cases hk
    · exact (hloop.others k hk').trans hk
  | purchase n boothId booth count s' outs hallowed hsold =>
    obtain ⟨paid, left, fundRecd, booth', bought, deals, -, -, -, hdraws, -, -⟩ := hsold.draws
    exact fewer_of_drawEach hdraws

/-- There is no booth and no box. -/
def Bare (s : State) : Prop :=
  ∀ boothId, s.booths.find? boothId = none ∧ s.boxes.find? boothId = none

theorem Bare.of_fewer (h : Bare s) (hfewer : Fewer s s') : Bare s' :=
  fun boothId => ⟨hfewer.booths boothId (h boothId).1, hfewer.boxes boothId (h boothId).2⟩

/-- The inputs that a contract without booths accepts: transfers between others, and the settings. -/
def Input.Quiet (self : Name) : Input → Prop
  | .token n => n.sender = self ∨ n.recipient ≠ self
  | .ntoken n => n.sender = self ∨ n.recipient ≠ self
  | .act a => a.IsGlobal

theorem quiet_of_move (hbare : Bare s) (hm : Move self env s i s' outs) :
    i.Quiet self ∧ outs = [] := by
  -- every other move looks a booth or a box up
  have hbooth : ∀ {k : ℕ} {booth : Booth}, s.booths.find? k ≠ some booth := by
    intro k booth hfound
    rw [(hbare k).1] at hfound
    cases hfound
  have hbox : ∀ {k : ℕ} {box : BoothBox}, s.boxes.find? k ≠ some box := by
    intro k box hfound
    rw [(hbare k).2] at hfound
    cases hfound
  cases hm with
  | ignoreToken n hn => exact ⟨hn, rfl⟩
  | ignoreNtoken n hn => exact ⟨hn, rfl⟩
  | setGlobal a gstate ha => exact ⟨ha, rfl⟩
  | overwrite a ha gstate old booth hold hid hnum hkinds => exact absurd hold hbooth
  | touch a ha old booth hold hnum hkinds => exact absurd hold hbooth
  | close owner boothId booth box hfound hfoundBox => exact absurd hfound hbooth
  | delbox boothId nsymb box hfoundBox => exact absurd hfoundBox hbox
  | fixbox boothId nfts box hfoundBox => exact absurd hfoundBox hbox
  | depositNothing n boothId booth hallowed hnone => exact absurd hallowed.found hbooth
  | deposit n boothId booth box s₁ num kinds hallowed hpos hfoundBox hloop hroom =>
    exact absurd hallowed.found hbooth
  | purchase n boothId booth count s' outs hallowed hsold => exact absurd hallowed.found hbooth

end Moves

/-! ## Runs -/

section Runs
variable {self : Name} {clock : TimePoint} {w w' : World} {is : List (Env × Input)}
  {i : Env × Input}

/-- No booths, no boxes and nothing in the account. -/
structure Idle (w : World) : Prop where
  bare : Bare w.state
  holding : ∀ x, w.holding x = 0
  nfts : ∀ bank sym, w.nfts bank sym = 0

/-- A contract without booths accepts quiet inputs only, and stays as it is. -/
theorem idle_of_step (h : Idle w) (hstep : step self w i = .ok w') :
    i.2.Quiet self ∧ w'.sent = [] ∧ Idle w' := by
  obtain ⟨hsigner, -, hrun, hsettle⟩ := step_spec hstep
  have hm := move_of_run hrun
  obtain ⟨hquiet, hsent⟩ := quiet_of_move h.bare hm
  rw [hsent, settleAll, Except.ok.injEq, Prod.mk.injEq] at hsettle
  have hreceived : receivedTokens self i.2 w.holding = w.holding ∧
      receivedNfts self i.2 w.nfts = w.nfts := by
    obtain ⟨env, input⟩ := i
    cases input with
    | act a => exact ⟨rfl, rfl⟩
    | token n =>
      have hto : n.recipient ≠ self := hquiet.resolve_left fun hself =>
        hsigner (congrArg some hself)
      exact ⟨if_neg hto, rfl⟩
    | ntoken n =>
      have hto : n.recipient ≠ self := hquiet.resolve_left fun hself =>
        hsigner (congrArg some hself)
      exact ⟨rfl, if_neg hto⟩
  rw [hreceived.1, hreceived.2] at hsettle
  exact ⟨hquiet, hsent, h.bare.of_fewer (fewer_of_move hm), fun x => hsettle.1 ▸ h.holding x,
    fun bank sym => hsettle.2 ▸ h.nfts bank sym⟩

/-- In every state that a newly deployed contract reaches, whoever calls what: there is no booth and
no box, and the account holds no token and no NFT. No call of `createbooth` is accepted, and no
transfer to the account. -/
theorem idle_of_run (hrun : Transition.Run (step self) Transition.Unrestricted (genesis clock)
    is w) :
    Idle w ∧
    (∀ env owner title nftContract fundContract plan price openedAt days w',
      step self w (env, .act (.createbooth owner title nftContract fundContract plan price openedAt
        days)) ≠ .ok w') ∧
    (∀ (env : Env) (n : Notice) (w' : World), n.recipient = self →
      step self w (env, .token n) ≠ .ok w') ∧
    ∀ (env : Env) (n : NftNotice) (w' : World), n.recipient = self →
      step self w (env, .ntoken n) ≠ .ok w' := by
  have h : Idle w := by
    refine hrun.invariant (P := Idle) (fun w i w' h _ hstep => (idle_of_step h hstep).2.2) ?_
    exact ⟨fun boothId => ⟨rfl, rfl⟩, fun x => rfl, fun bank sym => rfl⟩
  refine ⟨h, fun env owner title nftContract fundContract plan price openedAt days w' hstep => ?_,
    fun env n w' hto hstep => ?_, fun env n w' hto hstep => ?_⟩
  · exact (idle_of_step h hstep).1
  · have hsigner : n.sender ≠ self := fun hself => (step_spec hstep).1 (congrArg some hself)
    rcases (idle_of_step h hstep).1 with hself | hother
    · exact hsigner hself
    · exact hother hto
  · have hsigner : n.sender ≠ self := fun hself => (step_spec hstep).1 (congrArg some hself)
    rcases (idle_of_step h hstep).1 with hself | hother
    · exact hsigner hself
    · exact hother hto

end Runs

/-! ## A run of settings -/

namespace Sample

/-- The contract is set up, and a transfer between others passes. -/
def settings : List (Env × Input) :=
  [(env, .act (.init seller seller)), (env, .act (.setmaxbox 10)),
    (env, .token ⟨mtoken, ntoken, seller, .lit (int64 20) must, "booth:1".toList, by decide⟩)]

/-- The admin cannot create the booth, nor can the seller send NFTs for it. -/
theorem idle_of_run_sample :
    ∃ w, Transition.Run (step account) Transition.Unrestricted (genesis (.ofDays 100)) settings w ∧
      w.state.gstate.admin = seller ∧ w.holding ⟨must, mtoken⟩ = 0 ∧
      (∀ w', step account w (env, .act terms.action) ≠ .ok w') ∧
      ∀ w', step account w (env, .ntoken twoCards) ≠ .ok w' := by
  have hreach : Transition.Reaches (step account) Transition.Unrestricted
      (fun w => w.state.gstate.admin = seller) settings (genesis (.ofDays 100)) := by decide
  obtain ⟨w, hrun, hadmin⟩ := Transition.run_of_reaches hreach
  obtain ⟨hidle, hcreate, -, hsend⟩ := idle_of_run hrun
  exact ⟨w, hrun, hadmin, hidle.holding _, fun w' => hcreate _ _ _ _ _ _ _ _ _ w',
    fun w' => hsend env twoCards w' rfl⟩

end Sample
end Blindbox
end ToolkitContracts
