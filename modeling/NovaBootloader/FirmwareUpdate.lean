import NovaBootloader.BootChain
import NovaBootloader.Manifestation
import NovaBootloader.Pieces

/-!
# A firmware update from beginning to end

The host erases the pages of the image, writes it in blocks of the transfer size, each after a
SET_ADDRESS of its own, leaves DFU mode and lets the device reset. The next boot runs the image. The
blocks may come in any order and more than once.
-/

namespace NovaBootloader
open ByteMemory

section Commands

/-- What a list of commands stores, from the pointer at its beginning. -/
def storedPieces : UInt32 → List Command → List Piece
  | _, [] => []
  | _, .setAddress a :: cs => storedPieces a cs
  | ptr, .erasePage a :: cs =>
    ⟨a.toNat / 2048 * 2048, List.replicate 2048 0xFF⟩ :: storedPieces ptr cs
  | ptr, .dataBlock block bytes _ _ _ :: cs =>
    ⟨ptr.toNat + (block - 2) * 1024, padEven bytes⟩ :: storedPieces ptr cs

namespace Reference

variable {r : Reference}

theorem exec_flash {command : Command} (h : r.Succeeds command) :
    (r.exec command).flash = storeAll r.flash (storedPieces r.pointer [command]) := by
  obtain ⟨-, hdone⟩ := h
  cases command with
  | setAddress a => rfl
  | erasePage a =>
    unfold exec at hdone ⊢
    dsimp only at hdone ⊢
    split_ifs at hdone ⊢
    · exact (Piece.store_replicate _ _ _ _).symm
    · cases hdone
  | dataBlock block bytes hblock hpos hlen =>
    unfold exec at hdone ⊢
    dsimp only at hdone ⊢
    split_ifs at hdone ⊢
    · rfl
    · cases hdone

theorem exec_pointer (r : Reference) (command : Command) (cs : List Command) :
    storedPieces r.pointer (command :: cs) =
      storedPieces r.pointer [command] ++ storedPieces (r.exec command).pointer cs := by
  cases command with
  | setAddress a => rfl
  | erasePage a =>
    unfold exec
    dsimp only
    split_ifs <;> rfl
  | dataBlock block bytes hblock hpos hlen =>
    unfold exec
    dsimp only
    split_ifs <;> rfl

theorem run_flash {cs : List Command} (h : StepSystem.Along step Succeeds r cs) :
    (StepSystem.run step r cs).flash = storeAll r.flash (storedPieces r.pointer cs) := by
  induction cs generalizing r with
  | nil => rfl
  | cons command cs ih =>
    obtain ⟨hfirst, hrest⟩ := h
    rw [StepSystem.run_cons, ih hrest, step_of_succeeds hfirst, exec_pointer, storeAll_append,
      exec_flash hfirst]

theorem run_state {cs : List Command} (h : StepSystem.Along step Succeeds r cs) (hcs : cs ≠ []) :
    (StepSystem.run step r cs).state = .dnloadIdle := by
  induction cs generalizing r with
  | nil => exact absurd rfl hcs
  | cons command cs ih =>
    obtain ⟨hfirst, hrest⟩ := h
    rw [StepSystem.run_cons]
    by_cases hnil : cs = []
    · subst hnil
      rw [step_of_succeeds hfirst]
      exact hfirst.2
    · exact ih hrest hnil

theorem run_state_ne_error {cs : List Command} (h : StepSystem.Along step Succeeds r cs)
    (hr : r.state ≠ .error) : (StepSystem.run step r cs).state ≠ .error := by
  by_cases hcs : cs = []
  · subst hcs
    exact hr
  · rw [run_state h hcs]
    exact DfuState.noConfusion

theorem outputs_reported {cs : List Command} (h : StepSystem.Along step Succeeds r cs) :
    StepSystem.outputs step reported r cs = cs.flatMap fun _ => successReports := by
  induction cs generalizing r with
  | nil => rfl
  | cons command cs ih =>
    obtain ⟨hfirst, hrest⟩ := h
    rw [StepSystem.outputs_cons, ih hrest, List.flatMap_cons, reported, if_neg hfirst.1, hfirst.2]
    rfl

end Reference

end Commands

/-- An application that fits the region and has at least the vectors a boot looks at. -/
structure Image where
  bytes : List UInt8
  vectors : 8 ≤ bytes.length
  fits : bytes.length ≤ 0x3C800

namespace Image

variable (image : Image)

def sp : UInt32 := readWord (ofList image.bytes) 0

def reset : UInt32 := readWord (ofList image.bytes) 4

def blocks : ℕ := (image.bytes.length + 1023) / 1024

def chunk (k : ℕ) : List UInt8 := (image.bytes.drop (1024 * k)).take 1024

theorem length_chunk (k : ℕ) :
    (image.chunk k).length = min 1024 (image.bytes.length - 1024 * k) := by
  unfold chunk
  rw [List.length_take, List.length_drop]

theorem chunk_allowed (k : Fin image.blocks) :
    0 < (image.chunk k).length ∧ (image.chunk k).length ≤ dfuXferSize := by
  have hk : (k : ℕ) < (image.bytes.length + 1023) / 1024 := k.isLt
  have hsize : dfuXferSize = 1024 := rfl
  rw [length_chunk]
  omega

def writeBlock (k : Fin image.blocks) : List Command :=
  [.setAddress (UInt32.ofNat (0x08003000 + 1024 * k)),
    .dataBlock 2 (image.chunk k) le_rfl (image.chunk_allowed k).1 (image.chunk_allowed k).2]

end Image

/-- The pages the host erases and the order it writes the blocks in. -/
structure Plan (image : Image) where
  pages : List UInt32
  order : List (Fin image.blocks)
  erases : ∀ i < image.bytes.length, ∃ a ∈ pages, a.toNat / 2048 = (0x08003000 + i) / 2048
  writes : ∀ k, k ∈ order

def Plan.commands {image : Image} (plan : Plan image) : List Command :=
  plan.pages.map .erasePage ++ plan.order.flatMap image.writeBlock

def erasedPages (pages : List UInt32) (mem : ℕ → UInt8) : ℕ → UInt8 :=
  fun x => if ∃ a ∈ pages, a.toNat / 2048 = x / 2048 then 0xFF else mem x

section Installation

variable {image : Image}

theorem ofList_chunk (k : ℕ) {i : ℕ} (hi : i < (image.chunk k).length) :
    ofList (image.chunk k) i = ofList image.bytes (1024 * k + i) := by
  rw [image.length_chunk] at hi
  unfold ofList Image.chunk
  rw [List.getD_eq_getElem?_getD, List.getD_eq_getElem?_getD, List.getElem?_take_of_lt (by omega),
    List.getElem?_drop]

theorem ofList_padEven {bytes : List UInt8} {i : ℕ} (hi : i < (padEven bytes).length) :
    ofList (padEven bytes) i = if i < bytes.length then ofList bytes i else 0xFF := by
  have hall : toList (ofList bytes) bytes.length = bytes := by
    have h := toList_ofList_take bytes bytes.length
    rwa [Nat.min_self, List.take_length] at h
  exact (padded_eq hall hi).symm

/-- What the blocks of the image agree with. -/
def Image.placed (image : Image) (x : ℕ) : UInt8 :=
  if x < 0x08003000 + image.bytes.length then ofList image.bytes (x - 0x08003000) else 0xFF

def Image.piece (image : Image) (k : Fin image.blocks) : Piece :=
  ⟨0x08003000 + 1024 * k, padEven (image.chunk k)⟩

theorem piece_of_image (k : Fin image.blocks) : (image.piece k).Of image.placed := by
  rintro x ⟨hlo, hhi⟩
  change 0x08003000 + 1024 * (k : ℕ) ≤ x at hlo
  change x < 0x08003000 + 1024 * (k : ℕ) + (padEven (image.chunk k)).length at hhi
  have hlen := image.length_chunk k
  have hpad := length_padEven (image.chunk k)
  have hi : x - (0x08003000 + 1024 * (k : ℕ)) < (padEven (image.chunk k)).length := by omega
  change ofList (padEven (image.chunk k)) (x - (0x08003000 + 1024 * (k : ℕ))) = _
  rw [ofList_padEven hi]
  unfold Image.placed
  by_cases hin : x - (0x08003000 + 1024 * (k : ℕ)) < (image.chunk k).length
  · rw [if_pos hin, if_pos (by omega), ofList_chunk k hin]
    exact congrArg (ofList image.bytes) (by omega)
  · rw [if_neg hin, if_neg (by omega)]

/-- The blocks cover the image, and past it the pad byte of an odd one. -/
theorem covers_iff (x : ℕ) : (∃ k : Fin image.blocks, (image.piece k).Covers x) ↔
    0x08003000 ≤ x ∧ x < 0x08003000 + 2 * ((image.bytes.length + 1) / 2) := by
  have hcovers (k : Fin image.blocks) : (image.piece k).Covers x ↔
      0x08003000 + 1024 * (k : ℕ) ≤ x ∧
        x < 0x08003000 + 1024 * (k : ℕ) + 2 * (((image.chunk k).length + 1) / 2) := by
    unfold Piece.Covers Image.piece
    rw [length_padEven]
  constructor
  · rintro ⟨k, hk⟩
    have hlen := image.length_chunk k
    have hlt : (k : ℕ) < (image.bytes.length + 1023) / 1024 := k.isLt
    obtain ⟨hlo, hhi⟩ := (hcovers k).mp hk
    omega
  · rintro ⟨hlo, hhi⟩
    have hlt : (x - 0x08003000) / 1024 < (image.bytes.length + 1023) / 1024 := by omega
    refine ⟨⟨(x - 0x08003000) / 1024, hlt⟩, (hcovers _).mpr ?_⟩
    have hlen := image.length_chunk ((x - 0x08003000) / 1024)
    dsimp only
    omega

theorem storedPieces_append_erases (ptr : UInt32) (pages : List UInt32) (cs : List Command) :
    storedPieces ptr (pages.map .erasePage ++ cs) =
      pages.map (fun a => ⟨a.toNat / 2048 * 2048, List.replicate 2048 0xFF⟩) ++
        storedPieces ptr cs := by
  induction pages with
  | nil => rfl
  | cons a pages ih =>
    rw [List.map_cons, List.cons_append, storedPieces, ih]
    rfl

theorem storedPieces_writeBlocks (ptr : UInt32) (order : List (Fin image.blocks)) :
    storedPieces ptr (order.flatMap image.writeBlock) = order.map image.piece := by
  induction order generalizing ptr with
  | nil => rfl
  | cons k order ih =>
    have hk : (k : ℕ) < (image.bytes.length + 1023) / 1024 := k.isLt
    have hfits := image.fits
    have haddr : (UInt32.ofNat (0x08003000 + 1024 * (k : ℕ))).toNat =
        0x08003000 + 1024 * (k : ℕ) := by
      rw [UInt32.toNat_ofNat']
      omega
    rw [List.flatMap_cons, Image.writeBlock, List.cons_append, List.cons_append, List.nil_append,
      storedPieces, storedPieces, ih, haddr, List.map_cons]
    rfl

theorem storeAll_erases (mem : ℕ → UInt8) (pages : List UInt32) :
    storeAll mem (pages.map fun a => ⟨a.toNat / 2048 * 2048, List.replicate 2048 0xFF⟩) =
      erasedPages pages mem := by
  funext x
  unfold erasedPages
  have hcovers (a : UInt32) : Piece.Covers ⟨a.toNat / 2048 * 2048, List.replicate 2048 0xFF⟩ x ↔
      a.toNat / 2048 = x / 2048 := by
    rw [Piece.covers_replicate]
    omega
  by_cases h : ∃ a ∈ pages, a.toNat / 2048 = x / 2048
  · rw [if_pos h]
    obtain ⟨a, ha, hx⟩ := h
    refine storeAll_of_covered (f := fun _ => 0xFF) mem ?_
      ⟨_, List.mem_map_of_mem ha, (hcovers a).mpr hx⟩
    intro w hw
    obtain ⟨b, -, rfl⟩ := List.mem_map.mp hw
    exact Piece.of_replicate _ _ _
  · rw [if_neg h]
    refine storeAll_of_not_covered mem fun w hw hc => ?_
    obtain ⟨b, hb, rfl⟩ := List.mem_map.mp hw
    exact h ⟨b, hb, (hcovers b).mp hc⟩

/-- The commands of an update leave the image in the flash. The pad byte of an odd image lies in an
erased page. -/
theorem Plan.storeAll_commands (plan : Plan image) (ptr : UInt32) (mem : ℕ → UInt8) :
    storeAll mem (storedPieces ptr plan.commands) = overwrite (erasedPages plan.pages mem)
      0x08003000 image.bytes.length (ofList image.bytes) := by
  unfold Plan.commands
  rw [storedPieces_append_erases, storedPieces_writeBlocks, storeAll_append, storeAll_erases]
  funext x
  have hpieces : ∀ w ∈ plan.order.map image.piece, w.Of image.placed := by
    intro w hw
    obtain ⟨k, -, rfl⟩ := List.mem_map.mp hw
    exact piece_of_image k
  have hcovers : (∃ w ∈ plan.order.map image.piece, w.Covers x) ↔
      ∃ k : Fin image.blocks, (image.piece k).Covers x := by
    constructor
    · rintro ⟨w, hw, hc⟩
      obtain ⟨k, -, rfl⟩ := List.mem_map.mp hw
      exact ⟨k, hc⟩
    · rintro ⟨k, hc⟩
      exact ⟨_, List.mem_map_of_mem (plan.writes k), hc⟩
  by_cases hx : 0x08003000 ≤ x ∧ x < 0x08003000 + 2 * ((image.bytes.length + 1) / 2)
  · rw [storeAll_of_covered _ hpieces (hcovers.mpr ((covers_iff x).mpr hx))]
    unfold Image.placed
    by_cases hin : x < 0x08003000 + image.bytes.length
    · rw [if_pos hin, overwrite_of_mem hx.1 hin]
    · have hvectors := image.vectors
      obtain ⟨a, ha, hpage⟩ := plan.erases (image.bytes.length - 1) (by omega)
      rw [if_neg hin, overwrite_of_not_mem (by omega), erasedPages,
        if_pos ⟨a, ha, by omega⟩]
  · rw [storeAll_of_not_covered _ fun w hw hc => hx ((covers_iff x).mp (hcovers.mp ⟨w, hw, hc⟩)),
      overwrite_of_not_mem (by omega)]

theorem erasePage_succeeds {r : Reference} (hr : r.state ≠ .error) {a : UInt32}
    (ha : flashIsAddressValid a = true) : r.Succeeds (.erasePage a) := by
  refine ⟨hr, ?_⟩
  unfold Reference.exec
  dsimp only
  rw [if_pos ((page_inRegion_iff a).mpr ha)]

theorem writeBlock_succeeds {r : Reference} (hr : r.state ≠ .error) (k : Fin image.blocks) :
    StepSystem.Along Reference.step Reference.Succeeds r (image.writeBlock k) := by
  have hk : (k : ℕ) < (image.bytes.length + 1023) / 1024 := k.isLt
  have hfits := image.fits
  have hlen := image.length_chunk k
  have hpointer : r.Succeeds (.setAddress (UInt32.ofNat (0x08003000 + 1024 * (k : ℕ)))) := ⟨hr, rfl⟩
  refine ⟨hpointer, ⟨?_, ?_⟩, trivial⟩
  · rw [Reference.step_of_succeeds hpointer]
    exact DfuState.noConfusion
  · rw [Reference.step_of_succeeds hpointer]
    have haddr : (UInt32.ofNat (0x08003000 + 1024 * (k : ℕ))).toNat =
        0x08003000 + 1024 * (k : ℕ) := by
      rw [UInt32.toNat_ofNat']
      omega
    have hin : InRegion ((UInt32.ofNat (0x08003000 + 1024 * (k : ℕ))).toNat + (2 - 2) * 1024)
        (image.chunk k).length := by
      unfold InRegion
      simp only [haddr, toNat_appFlashStart, toNat_appFlashEnd]
      omega
    unfold Reference.exec
    dsimp only
    rw [if_pos hin]

theorem flatMap_succeeds {α : Type*} (f : α → List Command) {l : List α} {r : Reference}
    (hf : ∀ x ∈ l, ∀ r : Reference, r.state ≠ .error →
      StepSystem.Along Reference.step Reference.Succeeds r (f x)) (hr : r.state ≠ .error) :
    StepSystem.Along Reference.step Reference.Succeeds r (l.flatMap f) ∧
      (StepSystem.run Reference.step r (l.flatMap f)).state ≠ .error := by
  induction l generalizing r with
  | nil => exact ⟨trivial, hr⟩
  | cons x l ih =>
    have hx := hf x List.mem_cons_self r hr
    have hr' := Reference.run_state_ne_error hx hr
    obtain ⟨hrest, hend⟩ := ih (fun y hy => hf y (List.mem_cons_of_mem _ hy)) hr'
    rw [List.flatMap_cons, StepSystem.along_append, StepSystem.run_append]
    exact ⟨⟨hx, hrest⟩, hend⟩

theorem Plan.succeeds (plan : Plan image)
    (hpages : ∀ a ∈ plan.pages, flashIsAddressValid a = true) {r : Reference}
    (hr : r.state ≠ .error) :
    StepSystem.Along Reference.step Reference.Succeeds r plan.commands := by
  obtain ⟨herases, hend⟩ := flatMap_succeeds (fun a => [Command.erasePage a])
    (fun a ha r hr => ⟨erasePage_succeeds hr (hpages a ha), trivial⟩) hr
  rw [← List.map_eq_flatMap] at herases hend
  exact (StepSystem.along_append _ _ _).mpr ⟨herases,
    (flatMap_succeeds image.writeBlock (fun k _ r hr => writeBlock_succeeds hr k) hend).1⟩

end Installation

section Traffic

theorem HostExchange.continues (x : HostExchange) : ∀ e ∈ x.events, e.Continues := by
  have hpay := x.command.length_payload
  intro e he p hp hdnload
  rcases List.mem_cons.mp he with rfl | he
  · obtain rfl : x.request = p := Option.some.inj hp
    rw [x.length]
    exact hpay.1
  rcases List.mem_append.mp he with he | he
  · obtain ⟨d, -, rfl⟩ := List.mem_map.mp he
    cases hp
  · have hpoll (q : Poll) (he : e = .setup q.request) : 0 < p.wLength.toNat := by
      subst he
      obtain rfl : q.request = p := Option.some.inj hp
      exact absurd (hdnload.code_unique q.isGetstatus) (by decide)
    rcases List.mem_cons.mp he with he | he
    · exact hpoll _ he
    · exact hpoll _ (List.mem_singleton.mp he)

theorem UsbEvent.continues_of_traffic {e : UsbEvent} (h : ∀ e' ∈ e.traffic, e'.Continues) :
    e.Continues := by
  rcases e with _ | _ | ⟨_ | (q | d), tx⟩
  · exact fun p hp => absurd hp (Option.not_mem_none p)
  · exact fun p hp => absurd hp (Option.not_mem_none p)
  · exact fun p hp => absurd hp (Option.not_mem_none p)
  · exact fun p hp => h (.setup q) rfl p hp
  · exact fun p hp => absurd hp (Option.not_mem_none p)

theorem session_continues {xs : List HostExchange} {es : List UsbEvent}
    (hes : es.filterMap UsbEvent.traffic = xs.flatMap HostExchange.events) :
    ∀ e ∈ es, e.Continues := by
  refine fun e he => e.continues_of_traffic fun e' he' => ?_
  have hmem : e' ∈ xs.flatMap HostExchange.events := by
    rw [← hes]
    exact List.mem_filterMap.mpr ⟨e, he, he'⟩
  obtain ⟨x, -, hx⟩ := List.mem_flatMap.mp hmem
  exact x.continues e' hx

end Traffic

section Boots

variable {cfg : BuildConfig}

theorem Board.runDfuMode_dfu {b : Board} {s : Machine} (h : (b.runDfuMode cfg).2 = .dfu s) :
    s = Machine.startOn (b.runDfuMode cfg).1.options.flash ∧
      (b.runDfuMode cfg).1.magic = b.magic := by
  have hstay (b : Board) : b.bootAppOrStop.2 ≠ .dfu s := by
    rw [bootAppOrStop_end]
    split_ifs <;> exact BootEnd.noConfusion
  unfold runDfuMode at h ⊢
  by_cases hcfg : cfg.use120MHz = true
  · rw [if_pos hcfg] at h
    exact absurd h (hstay _)
  rw [if_neg hcfg] at h ⊢
  by_cases hclock : (clockInit cfg b.rcc).2 = 0
  · rw [if_pos hclock] at h
    exact absurd h (hstay _)
  rw [if_neg hclock] at h ⊢
  by_cases hwrp : (flashDisableWriteProtection b.options).2 ≠ 0
  · dsimp only at h
    rw [if_pos hwrp] at h
    exact BootEnd.noConfusion h
  · dsimp only at h ⊢
    rw [if_neg hwrp] at h ⊢
    cases h
    exact ⟨rfl, rfl⟩

/-- After a boot into DFU mode no request for DFU mode is left. -/
theorem Board.main_dfu {b : Board} {s : Machine} (h : (b.main cfg).2 = .dfu s) :
    s = Machine.startOn (b.main cfg).1.options.flash ∧
      magicRamSet (b.main cfg).1.magic = false := by
  cases henter : b.entersDfu with
  | false =>
    rw [main_of_not_entersDfu cfg b henter] at h
    exact BootEnd.noConfusion h
  | true =>
    rw [main_of_entersDfu cfg b henter] at h ⊢
    obtain ⟨hs, hmagic⟩ := runDfuMode_dfu h
    refine ⟨hs, ?_⟩
    rw [hmagic]
    by_cases hset : magicRamSet b.magic = true
    · rw [if_pos hset]
      rfl
    · rw [if_neg hset]
      exact Bool.eq_false_iff.mpr hset

/-- A request for DFU mode is granted in the 72 MHz build over a crystal that starts and option bytes
without write protection. -/
theorem Retained.boot_enters {p : Retained} {i : BootInput}
    (hrequest : f1ButtonPressed i.gpiocIdr = true ∨ magicRamSet p.magic = true)
    (hcfg : cfg.use120MHz = false) (hclock : (clockInit cfg (Rcc.reset i.polls)).2 ≠ 0)
    (hclear : wrpIsClear p.options = true) :
    (p.boot cfg i).2 = .dfu (Machine.start i.mem i.faults) := by
  have henter : (p.board i).entersDfu = true := by
    change (f1ButtonPressed i.gpiocIdr || magicRamSet p.magic || !appValid i.mem) = true
    rcases hrequest with h | h <;> simp [h]
  have hgranted : ¬ (cfg.use120MHz = true ∨ (clockInit cfg (p.board i).rcc).2 = 0) :=
    not_or.mpr ⟨by simp [hcfg], hclock⟩
  have hwrp : flashDisableWriteProtection (p.board i).options = ((p.board i).options, 0) :=
    flashDisableWriteProtection_of_clear hclear
  have hend := Board.main_end cfg (p.board i)
  rw [if_pos henter, if_neg hgranted, hwrp, if_neg (not_not.mpr rfl)] at hend
  exact hend

theorem Retained.boot_jumps {p : Retained} (hmagic : magicRamSet p.magic = false) {i : BootInput}
    (hf1 : f1ButtonPressed i.gpiocIdr = false) (happ : appValid i.mem = true) :
    (p.boot cfg i).2 = .jump (appSp i.mem) (appReset i.mem) := by
  have henter : (p.board i).entersDfu = false := by
    change (f1ButtonPressed i.gpiocIdr || magicRamSet p.magic || !appValid i.mem) = false
    rw [hf1, happ, hmagic]
    rfl
  exact congrArg Prod.snd (Board.main_of_not_entersDfu cfg (p.board i) henter)

end Boots

theorem readWord_congr {m m' : ℕ → UInt8} {a a' : ℕ} (h : ∀ i < 4, m (a + i) = m' (a' + i)) :
    readWord m a = readWord m' a' := by
  have h₀ : m a = m' a' := h 0 (by omega)
  unfold readWord
  rw [h₀, h 1 (by omega), h 2 (by omega), h 3 (by omega)]

namespace Image

/-- The vectors name RAM and the application region, as a boot checks it. -/
def Plausible (image : Image) : Prop :=
  SpInRam image.sp ∧ appAddress ≤ image.reset ∧ image.reset ≤ 0x08040000

instance (image : Image) : Decidable image.Plausible := inferInstanceAs (Decidable (_ ∧ _))

theorem vectors_installed (image : Image) {mem : ℕ → UInt8}
    (hmem : ∀ i < 8, mem (0x08003000 + i) = ofList image.bytes i) :
    appSp mem = image.sp ∧ appReset mem = image.reset := by
  refine ⟨readWord_congr fun i hi => ?_, readWord_congr fun i hi => ?_⟩
  · rw [Nat.zero_add]
    exact hmem i (by omega)
  · rw [Nat.add_assoc]
    exact hmem (4 + i) (by omega)

theorem appValid_installed {image : Image} (h : image.Plausible) {mem : ℕ → UInt8}
    (hmem : ∀ i < 8, mem (0x08003000 + i) = ofList image.bytes i) :
    appValid mem = true := by
  obtain ⟨hsp, hreset⟩ := image.vectors_installed hmem
  rw [appValid_iff, hsp, hreset]
  exact h

end Image

/-- An update as the host carries it out and as it shows on the bus. -/
structure Update (image : Image) where
  plan : Plan image
  exchanges : List HostExchange
  commands : exchanges.map HostExchange.command = plan.commands
  session : List UsbEvent
  traffic : session.filterMap UsbEvent.traffic = exchanges.flatMap HostExchange.events
  leave : DfuLoop.Leave
  finishTx : Bool
  pollTx : Bool

namespace Update

variable {image : Image} (u : Update image)

def events : List UsbEvent := u.session ++ u.leave.events u.finishTx u.pollTx

theorem commands_ne_nil : u.plan.commands ≠ [] := by
  have hblock : 0 < image.blocks := by
    have hlen := image.vectors
    unfold Image.blocks
    omega
  have hmem : Command.setAddress (UInt32.ofNat 0x08003000) ∈ u.plan.commands := by
    refine List.mem_append_right _ (List.mem_flatMap.mpr ⟨⟨0, hblock⟩, u.plan.writes _, ?_⟩)
    exact List.mem_cons_self
  exact List.ne_nil_of_mem hmem

theorem startOn_ready (hw : FlashHw) : (Machine.startOn hw).core.Ready := by
  refine ⟨.of_not_downloading (Nat.zero_le _) ?_, Or.inl rfl, rfl⟩
  exact not_or.mpr ⟨DfuState.noConfusion, DfuState.noConfusion⟩

/-- After the session the image is in the flash, whatever the flash did in between, if the host has
been told so. -/
theorem session_installs (hw : FlashHw)
    (hreported : StepSystem.outputs Machine.step Machine.reportedState (Machine.startOn hw)
      u.session = u.exchanges.flatMap fun _ => successReports) :
    ((Machine.startOn hw).run u.session).core.dfu.state = .dnloadIdle ∧
      ((Machine.startOn hw).run u.session).core.flash.mem =
        overwrite (erasedPages u.plan.pages hw.mem) 0x08003000 image.bytes.length
          (ofList image.bytes) := by
  obtain ⟨hcore, hout⟩ := Machine.run_traffic (Machine.startOn_quiet hw) u.traffic
  rw [hout] at hreported
  have hready := startOn_ready hw
  obtain ⟨-, halong, hview⟩ := exchanges_truthful hready u.exchanges hreported
  rw [u.commands] at halong hview
  rw [← hcore] at hview
  constructor
  · exact (congrArg Reference.state hview).trans (Reference.run_state halong u.commands_ne_nil)
  · refine (congrArg Reference.flash hview).trans ?_
    rw [Reference.run_flash halong, u.plan.storeAll_commands]
    rfl

/-- Over a flash that raises no error the host is told so, if the pages are the application's. -/
theorem reported_of_faultless {hw : FlashHw} (hf : hw.Faultless)
    (hpages : ∀ a ∈ u.plan.pages, flashIsAddressValid a = true) :
    StepSystem.outputs Machine.step Machine.reportedState (Machine.startOn hw) u.session =
      u.exchanges.flatMap fun _ => successReports := by
  obtain ⟨-, hout⟩ := Machine.run_traffic (Machine.startOn_quiet hw) u.traffic
  have hready := startOn_ready hw
  have hsettled : (Machine.startOn hw).core.Settled :=
    ⟨hf, hready.consistent, Or.inl rfl, rfl⟩
  have hok : (Machine.startOn hw).core.view.state ≠ .error := by
    intro h
    cases h
  rw [hout, (exchanges_refine hsettled u.exchanges).2, u.commands,
    Reference.outputs_reported (u.plan.succeeds hpages hok), ← u.commands, List.flatMap_map]

/-- The main loop carries out the session and then waits for the reset with the flash as it is. -/
theorem loop_installs (hw : FlashHw)
    (hreported : StepSystem.outputs Machine.step Machine.reportedState (Machine.startOn hw)
      u.session = u.exchanges.flatMap fun _ => successReports) :
    let l := StepSystem.run DfuLoop.step ⟨Machine.startOn hw, 0, false⟩ u.events
    (l.resetting = true ↔ 49 ≤ u.leave.wait.length) ∧
      l.machine.core.flash.mem = overwrite (erasedPages u.plan.pages hw.mem) 0x08003000
        image.bytes.length (ofList image.bytes) := by
  obtain ⟨hstate, hflash⟩ := u.session_installs hw hreported
  have hworking : DfuLoop.Working (Machine.startOn hw) := by
    refine ⟨Machine.startOn_quiet hw, ?_, ?_⟩ <;> (intro h; cases h)
  obtain ⟨hreset, hkept⟩ := DfuLoop.run_leave (l := ⟨Machine.startOn hw, 0, false⟩) hworking rfl rfl
    (session_continues u.traffic) hstate u.leave u.finishTx u.pollTx
  exact ⟨hreset, (congrArg FlashHw.mem hkept).trans hflash⟩

end Update

theorem Image.boot_runs {cfg : BuildConfig} {image : Image} (h : image.Plausible) {p : Retained}
    (hmagic : magicRamSet p.magic = false) {j : BootInput}
    (hf1 : f1ButtonPressed j.gpiocIdr = false) {mem : ℕ → UInt8}
    (hj : j.mem = overwrite mem 0x08003000 image.bytes.length (ofList image.bytes)) :
    (p.boot cfg j).2 = .jump image.sp image.reset := by
  have hbytes : ∀ k < 8, j.mem (0x08003000 + k) = ofList image.bytes k := by
    intro k hk
    have hvectors := image.vectors
    rw [hj, overwrite_of_mem (by omega) (by omega), Nat.add_sub_cancel_left]
  obtain ⟨hsp, hpc⟩ := image.vectors_installed hbytes
  rw [Retained.boot_jumps hmagic hf1 (image.appValid_installed h hbytes), hsp, hpc]

/-- From a boot into DFU mode, whatever asked for it, to the first boot of the new application. If
the host is told for every command that it has been executed, then whatever errors the flash raised
in the meantime the device resets fifty iterations after the end of the download, its flash holds
the image, and a boot with the button released runs it. -/
theorem update_boots (cfg : BuildConfig) (p : Retained) (i : BootInput) {s : Machine}
    (hboot : (p.boot cfg i).2 = .dfu s) {image : Image} (u : Update image)
    (hreported : StepSystem.outputs Machine.step Machine.reportedState s u.session =
      u.exchanges.flatMap fun _ => successReports) :
    let l := StepSystem.run DfuLoop.step ⟨s, 0, false⟩ u.events
    (l.resetting = true ↔ 49 ≤ u.leave.wait.length) ∧
      l.machine.core.flash.mem = overwrite (erasedPages u.plan.pages s.core.flash.mem) 0x08003000
        image.bytes.length (ofList image.bytes) ∧
      ∀ j : BootInput, j.mem = l.machine.core.flash.mem → f1ButtonPressed j.gpiocIdr = false →
        image.Plausible → ((p.next cfg i).boot cfg j).2 = .jump image.sp image.reset := by
  intro l
  obtain ⟨hs, hmagic⟩ := Board.main_dfu hboot
  have hmagic' : magicRamSet (p.next cfg i).magic = false := by
    rw [Retained.next_eq]
    exact hmagic
  generalize ((p.board i).main cfg).1.options.flash = hw at hs
  subst hs
  obtain ⟨hreset, hmem⟩ := u.loop_installs hw hreported
  exact ⟨hreset, hmem, fun j hj hf1 hplausible =>
    Image.boot_runs hplausible hmagic' hf1 (hj.trans hmem)⟩

section Example

def tinyImage : Image where
  bytes := bytes32 0x20001000 ++ bytes32 0x08003009 ++ [0x55]
  vectors := by decide
  fits := by decide

def tinyPlan : Plan tinyImage where
  pages := [0x08003000]
  order := [⟨0, by decide⟩]
  erases := by decide
  writes := by decide

def tinyExchange (command : Command) (block len : UInt16) (hblock : block.toNat = command.block)
    (hlen : len.toNat = command.payload.length) (hpacket : command.payload.length ≤ 64) :
    HostExchange where
  command := command
  request := .dnload block len
  isDnload := ⟨(by decide : (0x21 : UInt8) &&& usbReqTypeMask = usbReqTypeClass), rfl⟩
  block := hblock
  length := hlen
  packets := [.ofBytes command.payload]
  size := by
    have hpay := command.length_payload
    simp only [List.mem_singleton, forall_eq, OutPacket.ofBytes, List.length_take, ep0MaxSize]
    omega
  split := by
    have htake : command.payload.take 1023 = command.payload := List.take_of_length_le (by omega)
    simp [OutPacket.ofBytes, htake]
  firstPoll := Machine.poll
  secondPoll := Machine.poll

def tinyExchanges : List HostExchange :=
  [tinyExchange (.erasePage 0x08003000) 0 5 rfl rfl (by decide),
    tinyExchange (.setAddress 0x08003000) 0 5 rfl rfl (by decide),
    tinyExchange (.dataBlock 2 tinyImage.bytes (by decide) (by decide) (by decide)) 2 9 rfl rfl
      (by decide)]

def tinySession : List UsbEvent :=
  .inDone :: tinyExchanges.flatMap HostExchange.events ++ [.idle]

theorem tinySession_traffic :
    tinySession.filterMap UsbEvent.traffic = tinyExchanges.flatMap HostExchange.events := by
  decide

theorem tinyWait_silent : ∀ e ∈ List.replicate 49 UsbEvent.idle, e.traffic = none := by
  intro e he
  rw [List.eq_of_mem_replicate he]
  rfl

def tinyUpdate : Update tinyImage where
  plan := tinyPlan
  exchanges := tinyExchanges
  commands := rfl
  session := tinySession
  traffic := tinySession_traffic
  leave :=
    { finish := .dnload 0 0
      isFinish := by decide
      length := rfl
      poll := Machine.poll.request
      isPoll := Machine.poll.isGetstatus
      gap := [.inDone]
      gapSilent := List.forall_mem_singleton.mpr rfl
      wait := List.replicate 49 .idle
      waitSilent := tinyWait_silent }
  finishTx := false
  pollTx := true

def askedFor : Retained := ⟨dfuMagicValue, fun _ => 0x00FF⟩

def blankFlash : FlashHw :=
  FlashHw.powerOn (Retained.plausibleBoot f1ButtonPin).mem fun _ => Fault.none

def tinyLoop : DfuLoop :=
  StepSystem.run DfuLoop.step ⟨Machine.startOn blankFlash, 0, false⟩ tinyUpdate.events

def tinyBoot (mem : ℕ → UInt8) : BootInput := { Retained.plausibleBoot f1ButtonPin with mem := mem }

theorem tinyBoot_mem (mem : ℕ → UInt8) : (tinyBoot mem).mem = mem := rfl

theorem tiny_update_boots : tinyLoop.resetting = true ∧
    ((askedFor.next ⟨false, false⟩ (Retained.plausibleBoot f1ButtonPin)).boot ⟨false, false⟩
      (tinyBoot tinyLoop.machine.core.flash.mem)).2 = .jump 0x20001000 0x08003009 := by
  have hboot : (askedFor.boot ⟨false, false⟩ (Retained.plausibleBoot f1ButtonPin)).2 =
      .dfu (Machine.startOn blankFlash) :=
    Retained.boot_enters (Or.inr (by decide)) rfl (by decide +kernel) (by decide)
  have hpages : ∀ a ∈ tinyUpdate.plan.pages, flashIsAddressValid a = true :=
    List.forall_mem_singleton.mpr rfl
  obtain ⟨hreset, -, hjump⟩ := update_boots ⟨false, false⟩ askedFor
    (Retained.plausibleBoot f1ButtonPin) hboot tinyUpdate
    (tinyUpdate.reported_of_faultless (fun _ => rfl) hpages)
  have hloop : StepSystem.run DfuLoop.step ⟨Machine.startOn blankFlash, 0, false⟩
      tinyUpdate.events = tinyLoop := rfl
  rw [hloop] at hreset hjump
  refine ⟨hreset.mpr (by decide), ?_⟩
  have hplausible : tinyImage.Plausible := by decide
  exact hjump (tinyBoot tinyLoop.machine.core.flash.mem) (tinyBoot_mem _) (by decide) hplausible

end Example

end NovaBootloader
