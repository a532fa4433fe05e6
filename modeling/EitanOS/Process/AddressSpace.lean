import EitanOS.Process.Image

/-!
# Memory through an address space

What a process reads at an address and what the processor lets it do there, for the address space of
a PML4.

* `rights`: what the entries of all four levels allow. **`rights_current`**: where tables are linked
  as `vmm_map_page` does it, the entry of the page decides.
* **`LowHalfOk.get_store`**: in a well-formed user half a store changes one byte.
* `Extends`: what was mapped is mapped as before, with the same bytes. `Extends.setVmm` and
  `Extends.stores`: page tables and bytes of new pages may change.
-/

namespace EitanOS

/-- What the processor allows at an address. -/
structure Rights where
  user : Bool
  write : Bool
  execute : Bool
deriving DecidableEq

/-- What an entry allows. -/
def PageEntry.rights (e : PageEntry) : Rights := ⟨e.userAccessible, e.writeable, !e.noExecute⟩

/-- What both allow. -/
def Rights.inter (x y : Rights) : Rights :=
  ⟨x.user && y.user, x.write && y.write, x.execute && y.execute⟩

/-- What the entries of the four levels allow at an address, in the address space of a PML4. -/
def rights (s : Vmm) (pml4 virt : ℕ) : Option Rights :=
  (leadsTo s pml4 (tableIndex 4 virt)).bind fun pdpt =>
    (leadsTo s pdpt (tableIndex 3 virt)).bind fun pd =>
      (leadsTo s pd (tableIndex 2 virt)).bind fun pt =>
        (leadsTo s pt (tableIndex 1 virt)).map fun _ =>
          (s.frames pml4 (tableIndex 4 virt)).rights.inter
            ((s.frames pdpt (tableIndex 3 virt)).rights.inter
              ((s.frames pd (tableIndex 2 virt)).rights.inter
                (s.frames pt (tableIndex 1 virt)).rights))

/-- The byte at an address, in the address space of a PML4. -/
def Ram.read (r : Ram) (pml4 virt : ℕ) : Option UInt8 :=
  (translate r.vmm pml4 virt).map fun f => r.bytes f (virt % 4096)

/-- The byte at an address of the current address space. -/
def Ram.get (r : Ram) (virt : ℕ) : Option UInt8 := r.read r.vmm.current virt

variable {s v : Vmm} {r r' r₁ : Ram} {a q virt : ℕ} {x : ℕ × UInt8} {xs : List (ℕ × UInt8)}

/-! ## Rights -/

/-- The entries that lead to tables allow everything. -/
def OpenLinks (s : Vmm) : Prop := LinkEntries (fun e => e.rights = ⟨true, true, true⟩) s

theorem KeepsLinks.openLinks {s' : Vmm} (h : KeepsLinks s s') (hs : OpenLinks s) : OpenLinks s' :=
  h _ (fun _ => rfl) hs

theorem present_of_leadsTo {g i f : ℕ} (h : leadsTo s g i = some f) :
    (s.frames g i).present = true := by
  unfold leadsTo PageEntry.target at h
  split_ifs at h with hp
  exact hp

theorem Rights.inter_full (x : Rights) : Rights.inter ⟨true, true, true⟩ x = x := by
  simp [Rights.inter]

theorem OpenLinks.step (h : OpenLinks s) {g i f : ℕ} {l : List ℕ} (hn : s.half.Node s.current l g)
    (hl : l.length < 3) (hi : s.half.allowed l.length i) (e : leadsTo s g i = some f) :
    (s.frames g i).rights = ⟨true, true, true⟩ ∧ s.half.Node s.current (i :: l) f :=
  ⟨h _ _ _ _ hn hl hi (present_of_leadsTo e), .slot hn (Nat.lt_succ_of_lt hl) hi e⟩

/-- **The entry of the page decides.** -/
theorem rights_current (h : OpenLinks s) (hv : virt < 2 ^ 47) :
    rights s s.current virt = (view s (virt / 4096)).map fun b => b.2.rights := by
  unfold rights
  rw [view_page hv, tableOf]
  cases e₄ : leadsTo s s.current (tableIndex 4 virt) with
  | none => rfl
  | some pdpt =>
    obtain ⟨r₄, n₃⟩ := h.step (.root rfl) (Nat.zero_lt_succ 2)
      ⟨tableIndex_lt 4 virt, fun _ => tableIndex_four_lt hv⟩ e₄
    rw [Option.bind_some, Option.bind_some, r₄]
    cases e₃ : leadsTo s pdpt (tableIndex 3 virt) with
    | none => rfl
    | some pd =>
      obtain ⟨r₃, n₂⟩ := h.step n₃ (by simp) ⟨tableIndex_lt 3 virt, nofun⟩ e₃
      rw [Option.bind_some, Option.bind_some, r₃]
      cases e₂ : leadsTo s pd (tableIndex 2 virt) with
      | none => rfl
      | some pt =>
        obtain ⟨r₂, -⟩ := h.step n₂ (by simp) ⟨tableIndex_lt 2 virt, nofun⟩ e₂
        rw [Option.bind_some, Option.bind_some, r₂]
        simp only [Rights.inter_full, leadsTo, PageEntry.target, PageEntry.binding]
        split_ifs
        · rfl
        · rfl

/-! ## Bytes -/

theorem get_eq (ha : a < 2 ^ 47) :
    r.get a = (view r.vmm (a / 4096)).map fun b => r.bytes b.1 (a % 4096) := by
  unfold Ram.get Ram.read
  rw [translate_current ha, Option.map_map]
  rfl

theorem node_of_view {b : Binding} (h : view s q = some b) :
    q < 2 ^ 35 ∧ s.half.Node s.current (tableIndex 1 (q * 4096) :: tableSlots (q * 4096)) b.1 := by
  have hq : q < 2 ^ 35 := by
    by_contra hq
    rw [view_outside s hq] at h
    cases h
  have hv : q * 4096 < 2 ^ 47 := by omega
  rw [← Nat.mul_div_cancel q (by decide : 0 < 4096), view_eq_some hv] at h
  obtain ⟨pt, hpt, hb⟩ := h
  refine ⟨hq, .slot hpt (by simp [tableSlots, userForest]) LowHalfOk.allowed_page ?_⟩
  show (s.frames pt (tableIndex 1 (q * 4096))).target = some b.1
  unfold PageEntry.binding at hb
  unfold PageEntry.target
  split_ifs at hb ⊢
  rw [← Option.some.inj hb]

/-- **No two pages have one frame.** -/
theorem LowHalfOk.page_eq (h : LowHalfOk s) {q' : ℕ} {b b' : Binding} (hb : view s q = some b)
    (hb' : view s q' = some b') (e : b.1 = b'.1) : q = q' := by
  obtain ⟨hq, hn⟩ := node_of_view hb
  obtain ⟨hq', hn'⟩ := node_of_view hb'
  have hl := (h.separate _ _ _ _ _ (e ▸ hn) hn').2
  simp only [tableSlots, List.cons.injEq, and_true] at hl
  obtain ⟨e₁, e₂, e₃, e₄⟩ := hl
  have := page_eq_of_tableIndex (by omega : q * 4096 < 2 ^ 47) (by omega : q' * 4096 < 2 ^ 47) e₁ e₂ e₃ e₄
  omega

/-- **A store changes one byte.** -/
theorem LowHalfOk.get_store (h : LowHalfOk r.vmm) (ha : a < 2 ^ 47) (hx : x.1 < 2 ^ 47)
    (hb : (view r.vmm (x.1 / 4096)).isSome) :
    (r.store x).get a = if a = x.1 then some x.2 else r.get a := by
  obtain ⟨b, hb⟩ := Option.isSome_iff_exists.1 hb
  have hs : r.store x = { r with
      bytes := Function.update r.bytes b.1 (Function.update (r.bytes b.1) (x.1 % 4096) x.2) } := by
    unfold Ram.store
    rw [translate_current hx, hb]
    rfl
  rw [hs, get_eq ha]
  dsimp only
  split_ifs with e
  · rw [e, hb]
    simp
  · rw [get_eq ha]
    cases hb' : view r.vmm (a / 4096) with
    | none => rfl
    | some b' =>
      dsimp only [Option.map_some]
      by_cases hf : b'.1 = b.1
      · have hpage := h.page_eq hb' hb hf
        have hne : a % 4096 ≠ x.1 % 4096 := by omega
        rw [hf, Function.update_self, Function.update_of_ne hne]
      · rw [Function.update_of_ne hf]

theorem store_vmm (r : Ram) (x : ℕ × UInt8) : (r.store x).vmm = r.vmm := foldl_store_vmm [x] r

/-- The stores are to pages of the user half that are mapped. -/
def StoresMapped (v : Vmm) (xs : List (ℕ × UInt8)) : Prop :=
  ∀ x ∈ xs, x.1 < 2 ^ 47 ∧ (view v (x.1 / 4096)).isSome

theorem LowHalfOk.get_stores_of_ne (h : LowHalfOk r.vmm) (hx : StoresMapped r.vmm xs) (ha : a < 2 ^ 47)
    (hne : ∀ x ∈ xs, x.1 ≠ a) : (xs.foldl Ram.store r).get a = r.get a := by
  induction xs generalizing r with
  | nil => rfl
  | cons x xs ih =>
    obtain ⟨hx₀, hb⟩ := hx x (List.mem_cons_self ..)
    have hvmm := store_vmm r x
    rw [List.foldl_cons, ih (hvmm ▸ h) (hvmm ▸ fun y hy => hx y (List.mem_cons_of_mem _ hy))
      (fun y hy => hne y (List.mem_cons_of_mem _ hy)), h.get_store ha hx₀ hb,
      if_neg (hne x (List.mem_cons_self ..)).symm]

/-- **What was stored is read.** -/
theorem LowHalfOk.get_stores {y : UInt8} (h : LowHalfOk r.vmm) (hx : StoresMapped r.vmm xs)
    (ha : a < 2 ^ 47) (hval : ∀ x ∈ xs, x.1 = a → x.2 = y)
    (hmem : (∃ x ∈ xs, x.1 = a) ∨ r.get a = some y) : (xs.foldl Ram.store r).get a = some y := by
  induction xs generalizing r with
  | nil =>
    rcases hmem with ⟨x, hx, -⟩ | hget
    · cases hx
    · exact hget
  | cons x xs ih =>
    obtain ⟨hx₀, hb⟩ := hx x (List.mem_cons_self ..)
    have hvmm := store_vmm r x
    rw [List.foldl_cons]
    refine ih (hvmm ▸ h) (hvmm ▸ fun z hz => hx z (List.mem_cons_of_mem _ hz))
      (fun z hz => hval z (List.mem_cons_of_mem _ hz)) ?_
    rw [h.get_store ha hx₀ hb]
    split_ifs with e
    · exact .inr (congrArg some (hval x (List.mem_cons_self ..) e.symm))
    · refine hmem.imp_left fun ⟨z, hz, hza⟩ => ?_
      rcases List.mem_cons.1 hz with rfl | hz
      · exact absurd hza.symm e
      · exact ⟨z, hz, hza⟩

/-! ## Adding to an address space -/

/-- **What was mapped is as before.** -/
structure Extends (r r' : Ram) : Prop where
  current : r'.vmm.current = r.vmm.current
  keepsLinks : KeepsLinks r.vmm r'.vmm
  view_eq : ∀ q b, view r.vmm q = some b → view r'.vmm q = some b
  get_eq : ∀ a < 2 ^ 47, (view r.vmm (a / 4096)).isSome → r'.get a = r.get a

theorem Extends.refl (r : Ram) : Extends r r :=
  ⟨rfl, .refl _, fun _ _ h => h, fun _ _ _ => rfl⟩

theorem Extends.isSome (h : Extends r r') (hq : (view r.vmm q).isSome) : (view r'.vmm q).isSome := by
  obtain ⟨b, hb⟩ := Option.isSome_iff_exists.1 hq
  rw [h.view_eq q b hb]
  rfl

theorem Extends.trans {r'' : Ram} (h : Extends r r') (h' : Extends r' r'') : Extends r r'' :=
  ⟨h'.current.trans h.current, h.keepsLinks.trans h'.keepsLinks,
    fun q b hq => h'.view_eq q b (h.view_eq q b hq),
    fun a ha hb => (h'.get_eq a ha (h.isSome hb)).trans (h.get_eq a ha hb)⟩

theorem Extends.setVmm (h : Extends r r₁) (hc : v.current = r₁.vmm.current)
    (hk : KeepsLinks r₁.vmm v)
    (hv : ∀ q, (view r.vmm q).isSome → view v q = view r₁.vmm q) :
    Extends r { r₁ with vmm := v } := by
  refine ⟨hc.trans h.current, h.keepsLinks.trans hk, fun q b hq => ?_, fun a ha hb => ?_⟩
  · show view v q = some b
    rw [hv q (by rw [hq]; rfl), h.view_eq q b hq]
  · rw [← h.get_eq a ha hb, EitanOS.get_eq ha, EitanOS.get_eq ha]
    show Option.map _ (view v (a / 4096)) = _
    rw [hv _ hb]

theorem Extends.stores (h : Extends r r₁) (hok : LowHalfOk r₁.vmm) (hx : StoresMapped r₁.vmm xs)
    (hnew : ∀ x ∈ xs, view r.vmm (x.1 / 4096) = none) : Extends r (xs.foldl Ram.store r₁) := by
  have hvmm := foldl_store_vmm xs r₁
  refine ⟨by rw [hvmm, h.current], hvmm ▸ h.keepsLinks, hvmm ▸ h.view_eq, fun a ha hb => ?_⟩
  rw [hok.get_stores_of_ne hx ha, h.get_eq a ha hb]
  rintro x hx' rfl
  rw [hnew x hx'] at hb
  cases hb

theorem Allocated.extends {page n flags : ℕ} (h : Allocated r.vmm v page n flags)
    (hc : v.current = r.vmm.current) : Extends r { r with vmm := v } := by
  refine (Extends.refl r).setVmm hc h.keepsLinks fun q hq => h.rest q ?_
  rintro j hj rfl
  rw [h.free j hj] at hq
  cases hq

end EitanOS
