import ToolkitContracts.Blindbox.Moves

/-!
# The drawing loop

A draw takes one unit out of an entry of the box and writes the box and the booth. When the
counters of the booth agree with the box before, the drawn number lies within the box, and the
counters agree after it. So a whole purchase takes out of the box exactly what it hands over.
-/

namespace ToolkitContracts
namespace Blindbox

/-- The counters of a booth say what is in its box. -/
structure CountersAgree (booth : Booth) (box : BoothBox) : Prop where
  units : booth.nftNum.toNat = box.total
  kinds : booth.nftBoxNum.toNat = box.kinds
  positive : box.Positive

section OneDraw
variable {env : Env} {owner : Name} {index : ℕ} {s s' : State} {booth booth' : Booth}
  {box : BoothBox} {nft : Nasset} {e : BoxEntry} {sym : Nsymbol} {randIndex curr : UInt64}
  {rows : List BoxEntry}

theorem mem_of_pick (h : pick randIndex curr rows = some e) : e ∈ rows := by
  induction rows generalizing curr with
  | nil => cases h
  | cons a rows ih =>
    unfold pick at h
    split at h
    · rw [← Option.some.inj h]
      exact List.mem_cons_self ..
    · exact List.mem_cons_of_mem _ (ih h)

/-- A number up to the total is reached. -/
theorem pick_of_le (hne : rows ≠ [])
    (hlt : curr.toNat + (rows.map fun e => e.count.toNat).sum < 2 ^ 64)
    (hle : randIndex.toNat ≤ curr.toNat + (rows.map fun e => e.count.toNat).sum) :
    ∃ e, pick randIndex curr rows = some e := by
  induction rows generalizing curr with
  | nil => exact absurd rfl hne
  | cons a rows ih =>
    rw [List.map_cons, List.sum_cons] at hlt hle
    have hnext : (curr + a.count).toNat = curr.toNat + a.count.toNat := by
      rw [UInt64.toNat_add]
      omega
    unfold pick
    by_cases hreached : randIndex ≤ curr + a.count
    · exact ⟨a, if_pos hreached⟩
    · rw [if_neg hreached]
      rw [UInt64.le_iff_toNat_le, hnext] at hreached
      have hrest : rows ≠ [] := by
        rintro rfl
        rw [List.map_nil, List.sum_nil] at hle
        omega
      apply ih hrest
      · omega
      · omega

theorem rand_le (h : rand env range owner index = .ok randIndex) :
    0 < randIndex.toNat ∧ randIndex.toNat ≤ range.toNat := by
  simp only [rand, bind_eq_ok, check_eq_ok, exists_const, pure_eq_ok] at h
  obtain ⟨hrange, r1, -, rfl⟩ := h
  have hpos : range.toNat ≠ 0 := fun hzero => hrange (UInt64.toNat_inj.mp hzero)
  have hlt : r1.toNat % range.toNat < range.toNat := Nat.mod_lt _ (by omega)
  have hmax : range.toNat < 2 ^ 64 := range.toNat_lt
  rw [UInt64.toNat_add, UInt64.toNat_mod]
  show 0 < (r1.toNat % range.toNat + 1) % 2 ^ 64 ∧ (r1.toNat % range.toNat + 1) % 2 ^ 64 ≤ _
  omega

/-- A number in range is found, whatever the entries are. -/
theorem pick_inside_box (hagree : CountersAgree booth box)
    (hrange : 0 < randIndex.toNat ∧ randIndex.toNat ≤ booth.nftNum.toNat) :
    ∃ e ∈ box.nfts, pick randIndex 0 box.nfts.rows = some e := by
  have hlt : booth.nftNum.toNat < 2 ^ 64 := booth.nftNum.toNat_lt
  have htotal : (box.nfts.rows.map fun e => e.count.toNat).sum = booth.nftNum.toNat :=
    hagree.units.symm
  have hzero : (0 : UInt64).toNat = 0 := rfl
  have hne : box.nfts.rows ≠ [] := by
    intro hnil
    rw [hnil, List.map_nil, List.sum_nil] at htotal
    omega
  obtain ⟨e, he⟩ := pick_of_le hne (by omega) (by omega : randIndex.toNat ≤ (0 : UInt64).toNat + _)
  exact ⟨e, mem_of_pick he, he⟩

/-! ## Taking a unit out -/

theorem toNat_sub_one {a : UInt64} (h : 0 < a.toNat) : (a - 1).toNat = a.toNat - 1 := by
  have hle : (1 : UInt64) ≤ a := UInt64.le_iff_toNat_le.mpr h
  rw [UInt64.toNat_sub_of_le _ _ hle]
  rfl

@[simp] theorem boothId_takeOne (box : BoothBox) (e : BoxEntry) :
    (box.takeOne e).1.boothId = box.boothId := by
  unfold BoothBox.takeOne
  split <;> rfl

/-- One unit less of the kind of the entry, and of no other. -/
theorem count_takeOne (he : e ∈ box.nfts) (hpos : 0 < e.count.toNat) :
    (box.takeOne e).1.count sym + (if e.symbol = sym then 1 else 0) = box.count sym := by
  have hsub := toNat_sub_one hpos
  have hcount : box.count e.symbol = e.count.toNat := count_of_find (Table.find?_self he)
  unfold BoothBox.takeOne
  by_cases hlast : e.count - 1 = 0
  · have hone : e.count.toNat = 1 := by
      rw [hlast] at hsub
      have hzero : (0 : UInt64).toNat = 0 := rfl
      omega
    rw [if_pos hlast, count_erase]
    by_cases hsym : e.symbol = sym
    · rw [if_pos hsym, if_pos hsym, ← hsym, hcount, hone]
    · rw [if_neg hsym, if_neg hsym]
      rfl
  · rw [if_neg hlast, count_put]
    by_cases hsym : e.symbol = sym
    · rw [if_pos hsym, if_pos hsym, ← hsym, hcount, hsub]
      omega
    · rw [if_neg hsym, if_neg hsym]
      rfl

theorem total_takeOne (he : e ∈ box.nfts) (hpos : 0 < e.count.toNat) :
    (box.takeOne e).1.total + 1 = box.total := by
  have hsub := toNat_sub_one hpos
  have hfind : box.nfts.find? e.symbol.raw = some e := Table.find?_self he
  unfold BoothBox.takeOne BoothBox.total
  by_cases hlast : e.count - 1 = 0
  · have hsum : ((box.nfts.erase e.symbol.raw).sum fun e => e.count.toNat) + e.count.toNat
        = box.nfts.sum fun e => e.count.toNat := Table.sum_erase hfind _
    rw [hlast] at hsub
    have hzero : (0 : UInt64).toNat = 0 := rfl
    rw [if_pos hlast]
    simp only
    omega
  · have hsum : ((box.nfts.put ⟨e.symbol, e.count - 1⟩).sum fun e => e.count.toNat)
        + e.count.toNat = (box.nfts.sum fun e => e.count.toNat) + (e.count - 1).toNat :=
      Table.sum_put_old (x := (⟨e.symbol, e.count - 1⟩ : BoxEntry)) hfind _
    rw [if_neg hlast]
    simp only
    omega

theorem kinds_takeOne (he : e ∈ box.nfts) :
    (box.takeOne e).1.kinds + (if (box.takeOne e).2 = true then 1 else 0) = box.kinds := by
  have hfind : box.nfts.find? e.symbol.raw = some e := Table.find?_self he
  unfold BoothBox.takeOne BoothBox.kinds
  by_cases hlast : e.count - 1 = 0
  · rw [if_pos hlast]
    exact Table.length_erase hfind
  · rw [if_neg hlast]
    exact Table.length_put_old (x := (⟨e.symbol, e.count - 1⟩ : BoxEntry)) hfind

theorem positive_takeOne (hbox : box.Positive) (he : e ∈ box.nfts) :
    (box.takeOne e).1.Positive := by
  have hsub := toNat_sub_one (hbox e he)
  unfold BoothBox.takeOne
  by_cases hlast : e.count - 1 = 0
  · rw [if_pos hlast]
    exact Table.forall_erase hbox
  · rw [if_neg hlast]
    apply Table.forall_put hbox
    show 0 < (e.count - 1).toNat
    have hne : (e.count - 1).toNat ≠ 0 := fun hzero => hlast (UInt64.toNat_inj.mp hzero)
    omega

/-- A taken unit keeps the counters in agreement with the box. -/
theorem countersAgree_takeOne (hagree : CountersAgree booth box) (he : e ∈ box.nfts) :
    CountersAgree { booth with
      nftNum := booth.nftNum - 1
      nftBoxNum := if (box.takeOne e).2 = true then booth.nftBoxNum - 1 else booth.nftBoxNum }
      (box.takeOne e).1 := by
  have hpos := hagree.positive e he
  have htotal := total_takeOne he hpos
  have hkinds := kinds_takeOne he
  have hunits := hagree.units
  have hnum := hagree.kinds
  constructor
  · rw [toNat_sub_one (by omega)]
    show booth.nftNum.toNat - 1 = _
    omega
  · show (if (box.takeOne e).2 = true then booth.nftBoxNum - 1 else booth.nftBoxNum).toNat = _
    by_cases hlast : (box.takeOne e).2 = true
    · rw [if_pos hlast] at hkinds ⊢
      rw [toNat_sub_one (by omega)]
      omega
    · rw [if_neg hlast] at hkinds ⊢
      omega
  · exact positive_takeOne hagree.positive he

/-! ## One draw -/

/-- What a number of draws has done: `taken` says how many units of each kind. -/
structure Drawn (booth booth' : Booth) (box box' : BoothBox) (s s' : State)
    (taken : Nsymbol → ℤ) : Prop where
  gstate : s'.gstate = s.gstate
  id : booth'.id = booth.id
  contract : booth'.nftContract = booth.nftContract
  boxes : ∀ j, s'.boxes.find? j = if j = booth.id then some box' else s.boxes.find? j
  booths : ∀ j, j ≠ booth.id → s'.booths.find? j = s.booths.find? j
  agree : CountersAgree booth' box'
  counts : ∀ sym, (box'.count sym : ℤ) + taken sym = box.count sym

/-- A draw hands out one unit of what the box has. -/
theorem drawn_of_oneNft (h : oneNft env owner index booth s = .ok (s', booth', nft))
    (hbox : s.boxes.find? booth.id = some box) (hagree : CountersAgree booth box) :
    ∃ box', Drawn booth booth' box box' s s' (fun sym => unitsOf sym [nft]) ∧ nft.amount = 1 ∧
      s'.booths.find? booth.id = some booth' := by
  simp only [oneNft, bind_eq_ok, require_eq_ok, pure_eq_ok, dbcSet_eq_ok] at h
  obtain ⟨box₀, hbox₀, randIndex, -, e, hpick, boxes, ⟨-, rfl⟩, booths, ⟨-, rfl⟩, he⟩ := h
  obtain ⟨rfl, hrest⟩ := Prod.mk.inj he
  obtain ⟨rfl, rfl⟩ := Prod.mk.inj hrest
  obtain rfl : box₀ = box := Option.some.inj (hbox₀.symm.trans hbox)
  have hmem : e ∈ box₀.nfts := mem_of_pick hpick
  have hid : box₀.boothId = booth.id := (Table.find?_eq_some.mp hbox).2
  refine ⟨(box₀.takeOne e).1, ?_, rfl, ?_⟩
  · refine ⟨rfl, rfl, rfl, ?_, ?_, countersAgree_takeOne hagree hmem, ?_⟩
    · intro j
      rw [Table.find?_put, boothId_takeOne, hid]
    · intro j hj
      rw [Table.find?_put, if_neg hj]
    · intro sym
      have hcount : (box₀.takeOne e).1.count sym + (if e.symbol = sym then 1 else 0)
          = box₀.count sym := count_takeOne hmem (hagree.positive e hmem)
      rw [unitsOf_cons, unitsOf_nil, add_zero]
      show ((box₀.takeOne e).1.count sym : ℤ) + (if e.symbol = sym then 1 else 0)
        = (box₀.count sym : ℤ)
      by_cases hsym : e.symbol = sym
      · rw [if_pos hsym] at hcount ⊢
        omega
      · rw [if_neg hsym] at hcount ⊢
        omega
  · rw [Table.find?_put, if_pos rfl]

end OneDraw

/-! ## The loop -/

section Loop
variable {env : Env} {owner : Name} {i count : ℕ} {s s' : State} {booth booth' : Booth}
  {box : BoothBox} {nft : Nasset} {bought bought' : Bought} {sym : Nsymbol}

theorem unitsOf_eq_sum (sym : Nsymbol) (as : List Nasset) :
    unitsOf sym as = (as.map fun a => if a.symbol = sym then a.amount else 0).sum := by
  induction as with
  | nil => rfl
  | cons a as ih => rw [unitsOf_cons, List.map_cons, List.sum_cons, ih]

/-- The units of a kind are the weight of what weighs one in this kind only. -/
theorem unitsOf_eq_weight (sym : Nsymbol) (as : List Nasset) :
    unitsOf sym as = (as.map fun a => (if a.symbol = sym then 1 else 0) * a.amount).sum := by
  rw [unitsOf_eq_sum]
  congr 1
  apply List.map_congr_left
  intro a _
  rw [ite_mul, one_mul, zero_mul]

/-- The NFTs in `bought` are at most one for each draw. -/
def Bought.UpTo (bought : Bought) (i : ℕ) : Prop := ∀ b ∈ bought, b.amount ≤ i ∧ 0 < b.amount

/-- What a drawn NFT is added to: nothing, or the units of its kind. -/
theorem add_eq_ok (h : bought.add nft = .ok bought') (hone : nft.amount = 1)
    (hupto : bought.UpTo i) (hi : i < 2 ^ 32) :
    (bought.find? nft.symbol.id.toNat = none ∧ bought' = bought.put nft) ∨
      ∃ b sum : Nasset, bought.find? sum.symbol.id.toNat = some b ∧ sum.symbol = nft.symbol ∧
        b.symbol = nft.symbol ∧ sum.amount = b.amount + 1 ∧ bought' = bought.put sum := by
  unfold Bought.add at h
  cases hfind : bought.find? nft.symbol.id.toNat with
  | none =>
    rw [hfind] at h
    exact Or.inl ⟨rfl, (Except.ok.inj h).symm⟩
  | some b =>
    rw [hfind] at h
    simp only [Nasset.add, bind_eq_ok, check_eq_ok, pure_eq_ok, exists_const] at h
    obtain ⟨sum, ⟨hraw, rfl⟩, rfl⟩ := h
    have hsym : nft.symbol = b.symbol := Nsymbol.raw_inj.mp hraw
    obtain ⟨hb, -⟩ := Table.find?_eq_some.mp hfind
    have hamount := hupto b hb
    refine Or.inr ⟨b, Nasset.new (b.amount + nft.amount) b.symbol, Table.find?_self hb, hsym.symm,
      hsym.symm, ?_, rfl⟩
    show i64 (b.amount + nft.amount) = b.amount + 1
    rw [hone]
    apply i64_eq
    · omega
    · omega

theorem upTo_add (h : bought.add nft = .ok bought') (hone : nft.amount = 1)
    (hupto : bought.UpTo i) (hi : i < 2 ^ 32) : bought'.UpTo (i + 1) := by
  have hmore : ∀ b ∈ bought, b.amount ≤ ((i + 1 : ℕ) : ℤ) ∧ 0 < b.amount := by
    intro b hb
    have hb' := hupto b hb
    omega
  rcases add_eq_ok h hone hupto hi with ⟨-, rfl⟩ | ⟨b, sum, hfind, -, -, hamount, rfl⟩
  · apply Table.forall_put hmore
    omega
  · have hb := hupto b (Table.find?_eq_some.mp hfind).1
    apply Table.forall_put hmore
    omega

/-- A drawn NFT adds its weight to what `bought` weighs, for any weight of the kinds. -/
theorem weight_add (h : bought.add nft = .ok bought') (hone : nft.amount = 1)
    (hupto : bought.UpTo i) (hi : i < 2 ^ 32) (weight : Nsymbol → ℤ) :
    (bought'.sum fun a => weight a.symbol * a.amount)
      = (bought.sum fun a => weight a.symbol * a.amount) + weight nft.symbol := by
  rcases add_eq_ok h hone hupto hi with ⟨hnone, rfl⟩ | ⟨b, sum, hfind, hsum, hb, hamount, rfl⟩
  · rw [Table.sum_put_new hnone, hone, mul_one]
  · have hput : _ + weight b.symbol * b.amount = _ + weight sum.symbol * sum.amount :=
      Table.sum_put_old hfind fun a : Nasset => weight a.symbol * a.amount
    rw [hsum, hb, hamount, mul_add, mul_one] at hput
    omega

/-- A drawn NFT is added to the units of its kind. -/
theorem unitsOf_add (h : bought.add nft = .ok bought') (hone : nft.amount = 1)
    (hupto : bought.UpTo i) (hi : i < 2 ^ 32) (sym : Nsymbol) :
    unitsOf sym bought'.rows = unitsOf sym bought.rows + unitsOf sym [nft] := by
  have hweight := weight_add h hone hupto hi fun s => if s = sym then 1 else 0
  rw [unitsOf_eq_weight, unitsOf_eq_weight, unitsOf_cons, unitsOf_nil, add_zero, hone]
  exact hweight

/-- No draws at all. -/
theorem Drawn.refl (hbox : s.boxes.find? booth.id = some box) (hagree : CountersAgree booth box) :
    Drawn booth booth box box s s fun _ => 0 := by
  refine ⟨rfl, rfl, rfl, ?_, fun _ _ => rfl, hagree, fun sym => add_zero _⟩
  intro j
  by_cases hj : j = booth.id
  · rw [if_pos hj, hj, hbox]
  · rw [if_neg hj]

/-- Draws after draws. -/
theorem Drawn.trans {s₁ s₂ : State} {b₁ b₂ : Booth} {box₁ box₂ : BoothBox}
    {t₁ t₂ : Nsymbol → ℤ} (h₁ : Drawn booth b₁ box box₁ s s₁ t₁)
    (h₂ : Drawn b₁ b₂ box₁ box₂ s₁ s₂ t₂) :
    Drawn booth b₂ box box₂ s s₂ fun sym => t₁ sym + t₂ sym := by
  refine ⟨h₂.gstate.trans h₁.gstate, h₂.id.trans h₁.id, h₂.contract.trans h₁.contract, ?_, ?_,
    h₂.agree, ?_⟩
  · intro j
    rw [h₂.boxes, h₁.boxes, h₁.id]
    split <;> rfl
  · intro j hj
    rw [h₂.booths j (by rw [h₁.id]; exact hj), h₁.booths j hj]
  · intro sym
    have hfirst := h₁.counts sym
    have hrest := h₂.counts sym
    omega

/-- The loop takes out of the box what it adds to `bought`. -/
theorem drawn_of_drawEach
    (h : drawEach env owner count i (s, booth, bought) = .ok (s', booth', bought'))
    (hbox : s.boxes.find? booth.id = some box) (hagree : CountersAgree booth box)
    (hupto : bought.UpTo i) (hi : i + count ≤ 2 ^ 32) :
    ∃ box', Drawn booth booth' box box' s s'
        (fun sym => unitsOf sym bought'.rows - unitsOf sym bought.rows) ∧
      (0 < count → s'.booths.find? booth.id = some booth') := by
  induction count generalizing i s booth box bought with
  | zero =>
    obtain ⟨rfl, hrest⟩ := Prod.mk.inj (Except.ok.inj h)
    obtain ⟨rfl, rfl⟩ := Prod.mk.inj hrest
    refine ⟨box, ?_, fun hpos => absurd hpos (by omega)⟩
    simp only [sub_self]
    exact Drawn.refl hbox hagree
  | succ count ih =>
    simp only [drawEach, bind_eq_ok] at h
    obtain ⟨⟨s₁, booth₁, nft⟩, hone, bought₁, hadd, hrest⟩ := h
    obtain ⟨box₁, hdrawn, hamount, hstored⟩ := drawn_of_oneNft hone hbox hagree
    have hbox₁ : s₁.boxes.find? booth₁.id = some box₁ := by
      rw [hdrawn.boxes, if_pos hdrawn.id]
    have hunits := unitsOf_add hadd hamount hupto (by omega)
    have hupto₁ := upTo_add hadd hamount hupto (by omega)
    obtain ⟨box', hothers, hlast⟩ := ih hrest hbox₁ hdrawn.agree hupto₁ (by omega)
    refine ⟨box', ?_, fun _ => ?_⟩
    · have htaken : (fun sym => unitsOf sym bought'.rows - unitsOf sym bought.rows)
          = fun sym => unitsOf sym [nft]
            + (unitsOf sym bought'.rows - unitsOf sym bought₁.rows) := by
        funext sym
        have hsym : unitsOf sym bought₁.rows = unitsOf sym bought.rows + unitsOf sym [nft] :=
          hunits sym
        omega
      rw [htaken]
      exact hdrawn.trans hothers
    · cases count with
      | zero =>
        obtain ⟨rfl, hsame⟩ := Prod.mk.inj (Except.ok.inj hrest)
        obtain ⟨rfl, -⟩ := Prod.mk.inj hsame
        exact hstored
      | succ count =>
        rw [← hdrawn.id]
        exact hlast (by omega)

end Loop

end Blindbox
end ToolkitContracts
