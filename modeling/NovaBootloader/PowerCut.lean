import NovaBootloader.FirmwareUpdate
import NovaBootloader.FlashReplay

/-!
# A power cut in the middle of an update

A power cut keeps a beginning of the flash log: it falls between two half-words or before or after a
page erase, and a page erase that is only half done is outside the model. A boot looks at the stack
pointer and the reset vector only, so what it does after a power cut depends on how these eight bytes
are replaced: the erase of their page clears them all, and the half-words of the first block come in
ascending order.
-/

namespace NovaBootloader
open ByteMemory FlashArray

/-- From `c` to `c'` the flash follows its log, and the array meets `P` however far it has come. -/
def Passes (P : (ℕ → UInt8) → Prop) (c c' : Core) : Prop :=
  ∃ new, c'.flash.log = c.flash.log ++ new ∧
    c'.flash.array = c.flash.array.replay c.flash.faults new ∧
    c'.flash.faults = c.flash.faults ∧
    ∀ k, P (c.flash.array.replay c.flash.faults (new.take k)).mem

namespace Passes

variable {P : (ℕ → UInt8) → Prop} {c c' c'' : Core}

theorem of_flash_eq (h : c'.flash = c.flash) (hP : P c.flash.mem) : Passes P c c' := by
  refine ⟨[], ?_, ?_, ?_, fun k => ?_⟩
  · rw [h, List.append_nil]
  · rw [h]
    rfl
  · rw [h]
  · rw [List.take_nil]
    exact hP

theorem trans (h : Passes P c c') (h' : Passes P c' c'') : Passes P c c'' := by
  obtain ⟨new, hlog, harray, hfaults, hP⟩ := h
  obtain ⟨new', hlog', harray', hfaults', hP'⟩ := h'
  rw [harray, hfaults] at harray' hP'
  refine ⟨new ++ new', ?_, ?_, hfaults'.trans hfaults, fun k => ?_⟩
  · rw [hlog', hlog, List.append_assoc]
  · rw [harray', replay_append]
  · rw [List.take_append]
    by_cases hk : k ≤ new.length
    · rw [Nat.sub_eq_zero_of_le hk, List.take_zero, List.append_nil]
      exact hP k
    · rw [List.take_of_length_le (by omega), replay_append]
      exact hP' _

theorem mem_end (h : Passes P c c') : P c'.flash.mem := by
  obtain ⟨new, -, harray, -, hP⟩ := h
  have hend := hP new.length
  rw [List.take_length, ← harray] at hend
  exact hend

theorem mono {Q : (ℕ → UInt8) → Prop} (h : Passes P c c') (hPQ : ∀ m, P m → Q m) :
    Passes Q c c' := by
  obtain ⟨new, hlog, harray, hfaults, hP⟩ := h
  exact ⟨new, hlog, harray, hfaults, fun k => hPQ _ (hP k)⟩

end Passes

section Vectors

/-- The first `n` bytes of the image's vectors are programmed, the others erased. -/
def Image.Partly (image : Image) (n : ℕ) (m : ℕ → UInt8) : Prop :=
  ∀ i < 8, m (0x08003000 + i) = if i < n then ofList image.bytes i else 0xFF

def KeepsVectors (mem m : ℕ → UInt8) : Prop := ∀ i < 8, m (0x08003000 + i) = mem (0x08003000 + i)

theorem appVectors_congr {mem m : ℕ → UInt8} (h : KeepsVectors mem m) :
    appSp m = appSp mem ∧ appReset m = appReset mem :=
  ⟨readWord_congr fun i hi => h i (by omega), readWord_congr fun i hi => by
    rw [Nat.add_assoc]
    exact h (4 + i) (by omega)⟩

/-- A word whose upper half is still erased names neither RAM nor the application region. -/
theorem le32_erased_upper (b₀ b₁ : UInt8) : 0xFFFF0000 ≤ (le32 b₀ b₁ 0xFF 0xFF).toNat := by
  rw [toNat_le32]
  have h : (0xFF : UInt8).toNat = 255 := rfl
  omega

/-- Vectors that are not complete are not plausible. -/
theorem Image.Partly.not_appValid {image : Image} {n : ℕ} {m : ℕ → UInt8}
    (h : image.Partly (2 * n) m) (hn : n < 4) : appValid m = false := by
  rw [Bool.eq_false_iff]
  intro hvalid
  obtain ⟨⟨-, hsp⟩, -, hpc⟩ := (appValid_iff m).mp hvalid
  have herased (i : ℕ) (hi : i < 8) (hni : 2 * n ≤ i) : m (0x08003000 + i) = 0xFF := by
    rw [h i hi, if_neg (by omega)]
  rw [UInt32.le_iff_toNat_le] at hsp hpc
  have hestack : estack.toNat = 0x2000C000 := rfl
  have hend : (0x08040000 : UInt32).toNat = 0x08040000 := rfl
  by_cases hsmall : n < 2
  · have hword : appSp m = le32 (m 0x08003000) (m 0x08003001) 0xFF 0xFF := by
      change le32 _ _ (m (0x08003000 + 2)) (m (0x08003000 + 3)) = _
      rw [herased 2 (by omega) (by omega), herased 3 (by omega) (by omega)]
      rfl
    have hge := le32_erased_upper (m 0x08003000) (m 0x08003001)
    rw [← hword] at hge
    omega
  · have hword : appReset m = le32 (m 0x08003004) (m 0x08003005) 0xFF 0xFF := by
      change le32 _ _ (m (0x08003000 + 6)) (m (0x08003000 + 7)) = _
      rw [herased 6 (by omega) (by omega), herased 7 (by omega) (by omega)]
      rfl
    have hge := le32_erased_upper (m 0x08003004) (m 0x08003005)
    rw [← hword] at hge
    omega

end Vectors

section Replays

variable {faults : ℕ → Fault}

/-- However far an erase has come, its page is what it was or erased. -/
theorem replay_take_erase (faults : ℕ → Fault) (x : FlashArray) (a : UInt32) (k : ℕ) :
    (x.replay faults ((eraseLog a).take k)).mem = x.mem ∨
      (x.replay faults ((eraseLog a).take k)).mem =
        overwrite x.mem (a.toNat / 2048 * 2048) 2048 fun _ => 0xFF := by
  have hpage : (x.apply faults (.pageErase (FlashHw.pageBase a))).mem = x.mem ∨
      (x.apply faults (.pageErase (FlashHw.pageBase a))).mem =
        overwrite x.mem (a.toNat / 2048 * 2048) 2048 fun _ => 0xFF := by
    rw [apply, operate]
    dsimp only
    split_ifs
    · exact Or.inl rfl
    · exact Or.inr rfl
  rcases k with _ | _ | k
  · exact Or.inl rfl
  · exact Or.inl rfl
  · rw [eraseLog, List.take_succ_cons, replay_cons]
    split_ifs
    · rw [List.take_succ_cons, replay_cons, List.take_nil, replay_nil]
      exact hpage
    · exact Or.inl rfl

/-- However far the stores of a write have come, a first part of the data is programmed, if only the
last of them can have failed. -/
theorem replay_take_stores (data : ℕ → UInt8) (len dst : ℕ) {count i : ℕ} {x : FlashArray}
    (hcount : 2 * count ≤ len - i + 1)
    (hfaults : ∀ s, s + 1 < count → (faults (x.ops + s)).raised = false) (k : ℕ) :
    ∃ n ≤ count, (x.replay faults ((halfwordStores data len i dst count).take k)).mem =
      overwrite x.mem dst (2 * n) fun j => padded data len (i + j) := by
  induction count generalizing i dst x k with
  | zero =>
    refine ⟨0, le_rfl, ?_⟩
    rw [Nat.mul_zero, overwrite_zero, halfwordStores, List.range_zero, List.map_nil, List.take_nil,
      replay_nil]
  | succ count ih =>
    have hi : i < len := by omega
    rw [halfwordStores_succ]
    cases k with
    | zero =>
      refine ⟨0, Nat.zero_le _, ?_⟩
      rw [Nat.mul_zero, overwrite_zero, List.take_zero, replay_nil]
    | succ k =>
      rw [List.take_succ_cons, replay_cons, apply, operate]
      by_cases hraised : (faults x.ops).raised = true
      · have hlast : count = 0 := by
          by_contra hpos
          have hok := hfaults 0 (by omega)
          rw [Nat.add_zero, hraised] at hok
          cases hok
        subst hlast
        refine ⟨0, Nat.zero_le _, ?_⟩
        rw [Nat.mul_zero, overwrite_zero, if_pos hraised, halfwordStores, List.range_zero,
          List.map_nil, List.take_nil, replay_nil]
      · rw [if_neg hraised]
        obtain ⟨n, hn, hmem⟩ := ih (dst + 2) (i := i + 2) (x := ⟨overwrite x.mem dst 2 fun j =>
          if j = 0 then data i else padded data len (i + 1), x.ops + 1⟩) (by omega)
          (fun s hs => by rw [Nat.add_assoc, Nat.add_comm 1 s]; exact hfaults (s + 1) (by omega)) k
        exact ⟨n + 1, by omega, hmem.trans (overwrite_padded_succ x.mem data hi dst n)⟩

end Replays

section Attempts

variable {P : (ℕ → UInt8) → Prop} {c : Core} {image : Image} {mem : ℕ → UInt8}

theorem passes_attempt (hc : c.dfu.Consistent)
    (hP : ∀ k, P (c.flash.array.replay c.flash.faults ((attemptLog c).take k)).mem) :
    Passes P c (executePending c) := by
  obtain ⟨harray, hfaults⟩ := executePending_array hc.bufferLen_le
  exact ⟨attemptLog c, executePending_log hc.bufferLen_le, harray, hfaults, hP⟩

theorem attemptLog_setAddress (hcmd : c.dfu.cmdPending = dfuseCmdSetAddress) :
    attemptLog c = [] := by
  have hne : c.dfu.cmdPending ≠ 0 ∧ c.dfu.cmdPending ≠ dfuseCmdErasePage := by
    rw [hcmd]
    decide
  unfold attemptLog
  rw [if_pos hne.1, if_neg fun h => hne.2 h.1]

theorem attemptLog_erasePage (hcmd : c.dfu.cmdPending = dfuseCmdErasePage)
    (harg : c.dfu.cmdHasArg = true) : attemptLog c = eraseLog c.dfu.cmdArg := by
  have hne : c.dfu.cmdPending ≠ 0 := by
    rw [hcmd]
    decide
  unfold attemptLog
  rw [if_pos hne, if_pos ⟨hcmd, harg⟩]

theorem partly_erased_page (image : Image) {q : ℕ} (hq : q = 0x08003000 / 2048) (m : ℕ → UInt8) :
    image.Partly 0 (overwrite m (q * 2048) 2048 fun _ => 0xFF) := by
  intro i hi
  rw [overwrite_of_mem (by omega) (by omega), if_neg (Nat.not_lt_zero i)]

/-- A page erase clears the vectors or leaves them alone. -/
theorem overwrite_page_vectors (image : Image) (m : ℕ → UInt8) (q : ℕ) :
    image.Partly 0 (overwrite m (q * 2048) 2048 fun _ => 0xFF) ∨
      KeepsVectors m (overwrite m (q * 2048) 2048 fun _ => 0xFF) := by
  by_cases hq : q = 0x08003000 / 2048
  · exact Or.inl (partly_erased_page image hq m)
  · refine Or.inr fun i hi => ?_
    rw [overwrite_of_not_mem (by omega)]

/-- The vectors while the pages of the image are being erased. -/
def Image.Fresh (image : Image) (mem m : ℕ → UInt8) : Prop :=
  KeepsVectors mem m ∨ image.Partly 0 m

theorem KeepsVectors.trans {m m' : ℕ → UInt8} (h : KeepsVectors mem m) (h' : KeepsVectors m m') :
    KeepsVectors mem m' := fun i hi => (h' i hi).trans (h i hi)

theorem Image.Partly.congr {n : ℕ} {m m' : ℕ → UInt8} (h : image.Partly n m)
    (h' : KeepsVectors m m') : image.Partly n m' := fun i hi => (h' i hi).trans (h i hi)

theorem Image.Fresh.erase_page {m : ℕ → UInt8} (h : image.Fresh mem m) (q : ℕ) :
    image.Fresh mem (overwrite m (q * 2048) 2048 fun _ => 0xFF) := by
  rcases overwrite_page_vectors image m q with hpage | hpage
  · exact Or.inr hpage
  · exact h.imp (fun hk => hk.trans hpage) fun hp => hp.congr hpage

/-- Block `k` of the image, in the middle of its write. -/
theorem writeBlock_partly (k : Fin image.blocks) {a : UInt32} {data : ℕ → UInt8}
    (ha : a.toNat = 0x08003000 + 1024 * k)
    (hdata : toList data (image.chunk k).length = image.chunk k) {h : FlashHw}
    (hP : ∃ n, image.Partly (2 * n) h.mem) (j : ℕ) :
    ∃ n, image.Partly (2 * n) (h.array.replay h.faults
      ((writeLog a data (image.chunk k).length h).take j)).mem := by
  cases j with
  | zero => exact hP
  | succ j =>
    rw [writeLog, List.take_succ_cons, replay_cons]
    split_ifs with hr
    · obtain ⟨n, hn⟩ := hP
      have hhalf := Nat.min_le_left (((image.chunk k).length + 1) / 2)
        (programmed h.faults h.ops (((image.chunk k).length + 1) / 2) + 1)
      have hprog := Nat.min_le_right (((image.chunk k).length + 1) / 2)
        (programmed h.faults h.ops (((image.chunk k).length + 1) / 2) + 1)
      generalize min (((image.chunk k).length + 1) / 2)
        (programmed h.faults h.ops (((image.chunk k).length + 1) / 2) + 1) = count at hhalf hprog ⊢
      have hok : ∀ s, s + 1 < count → (h.faults (h.ops + s)).raised = false := by
        intro s hs
        exact (le_programmed_iff h.faults h.ops (by omega)).mp
          (by omega : s + 1 ≤ programmed h.faults h.ops (((image.chunk k).length + 1) / 2)) s
          (Nat.lt_succ_self s)
      obtain ⟨n', -, hmem⟩ := replay_take_stores data (image.chunk k).length a.toNat (i := 0)
        (x := h.array) (by omega) hok j
      have hlen := image.length_chunk k
      have hvectors := image.vectors
      change ∃ n, image.Partly (2 * n) (h.array.replay h.faults ((halfwordStores data
        (image.chunk k).length 0 a.toNat count).take j)).mem
      rw [hmem, ha]
      by_cases hk : (k : ℕ) = 0
      · refine ⟨max n n', fun i hi => ?_⟩
        by_cases hin : i < 2 * n'
        · rw [if_pos (by omega), overwrite_of_mem (by omega) (by omega), padded, if_pos (by omega),
            eq_ofList_of_toList hdata (by omega), ofList_chunk k (by omega)]
          exact congrArg (ofList image.bytes) (by omega)
        · rw [overwrite_of_not_mem (by omega)]
          refine (hn i hi).trans (if_congr ?_ rfl rfl)
          omega
      · refine ⟨n, fun i hi => ?_⟩
        rw [overwrite_of_not_mem (by omega)]
        exact hn i hi
    · rw [List.take_nil, replay_nil]
      exact hP

theorem holds_writeBlock_partly (k : Fin image.blocks)
    (hholds : c.Holds (.dataBlock 2 (image.chunk k) le_rfl (image.chunk_allowed k).1
      (image.chunk_allowed k).2))
    (hptr : c.dfu.addressPtr = UInt32.ofNat (0x08003000 + 1024 * (k : ℕ)))
    (hP : ∃ n, image.Partly (2 * n) c.flash.mem) (j : ℕ) :
    ∃ n, image.Partly (2 * n)
      (c.flash.array.replay c.flash.faults ((attemptLog c).take j)).mem := by
  have hk : (k : ℕ) < (image.bytes.length + 1023) / 1024 := k.isLt
  have hfits := image.fits
  have hpos := (image.chunk_allowed k).1
  cases hholds with
  | dataBlock h2 hpos' hlen hblock hcmd hbuf haddr =>
    have hbl : c.dfu.bufferLen = (image.chunk k).length := by rw [← hbuf, length_toList]
    have ha : c.dfu.address.toNat = 0x08003000 + 1024 * (k : ℕ) := by
      have hsame : c.dfu.blockAddress 2 = c.dfu.addressPtr := by
        unfold Dfu.blockAddress
        simp
      rw [haddr, hsame, hptr, UInt32.toNat_ofNat']
      omega
    unfold attemptLog
    rw [if_neg (not_not.mpr hcmd), if_pos (by omega), hbl]
    rw [hbl] at hbuf
    exact writeBlock_partly k ha hbuf hP j

end Attempts

section Exchanges

variable {P : (ℕ → UInt8) → Prop} {c : Core} {image : Image} {mem : ℕ → UInt8}

theorem exchanges_in_error (herror : c.dfu.state = .error) (xs : List HostExchange) :
    StepSystem.run coreStep c (xs.flatMap HostExchange.events) = c := by
  induction xs with
  | nil => rfl
  | cons x xs ih =>
    rw [List.flatMap_cons, StepSystem.run_append, (exchange_in_error herror x).1, ih]

/-- An exchange goes through what its attempt goes through, and fails or does what its command
says. -/
theorem exchange_passes (hc : c.Ready) (x : HostExchange)
    (hP : ∀ c' : Core, c'.flash = c.flash → c'.dfu.addressPtr = c.dfu.addressPtr →
      c'.Holds x.command →
      ∀ k, P (c'.flash.array.replay c'.flash.faults ((attemptLog c').take k)).mem) :
    Passes P c (StepSystem.run coreStep c x.events) ∧
      ((StepSystem.run coreStep c x.events).dfu.state = .error ∨
        (StepSystem.run coreStep c x.events).Ready ∧
          (StepSystem.run coreStep c x.events).view = c.view.exec x.command) := by
  obtain ⟨c', hholds, hcons, hflash, hview, hrun, hout⟩ := exchange_attempts hc x
  have hptr : c'.dfu.addressPtr = c.dfu.addressPtr := congrArg Reference.pointer hview
  refine ⟨?_, ?_⟩
  · have hpasses := passes_attempt hcons (hP c' hflash hptr hholds)
    unfold Passes at hpasses ⊢
    rw [hflash] at hpasses
    rw [hrun]
    exact hpasses
  · rcases executePending_state c' with hs | hs
    · rw [hs] at hout
      obtain ⟨hready, hsucceeds, hview'⟩ := exchange_truthful hc x hout
      exact Or.inr ⟨hready, hview'.trans (Reference.step_of_succeeds hsucceeds)⟩
    · rw [hrun]
      exact Or.inl hs

theorem erased_of_ready {c' : Core} {a : UInt32} (hready : c'.Ready)
    (hview : c'.view = c.view.exec (.erasePage a)) :
    c'.flash.mem = overwrite c.flash.mem (a.toNat / 2048 * 2048) 2048 fun _ => 0xFF := by
  unfold Reference.exec at hview
  dsimp only at hview
  split_ifs at hview
  · exact congrArg Reference.flash hview
  · have herror : c'.dfu.state = .error := congrArg Reference.state hview
    rcases hready.state with hs | hs <;> (rw [hs] at herror; cases herror)

/-- Erasing pages clears the vectors or leaves them alone, and clears them if their page is among
those erased. -/
theorem erases_pass (mem : ℕ → UInt8) (pages : List UInt32) {c : Core} (hc : c.Ready)
    {xs : List HostExchange}
    (hxs : xs.map HostExchange.command = pages.map .erasePage)
    (hP : image.Fresh mem c.flash.mem) :
    let c' := StepSystem.run coreStep c (xs.flatMap HostExchange.events)
    Passes (image.Fresh mem) c c' ∧ (c'.dfu.state = .error ∨ c'.Ready ∧
      (image.Partly 0 c.flash.mem ∨ (∃ a ∈ pages, a.toNat / 2048 = 0x08003000 / 2048) →
        image.Partly 0 c'.flash.mem)) := by
  induction pages generalizing c xs with
  | nil =>
    obtain rfl := List.map_eq_nil_iff.mp hxs
    refine ⟨.of_flash_eq rfl hP, Or.inr ⟨hc, ?_⟩⟩
    rintro (h | ⟨a, ha, -⟩)
    · exact h
    · cases ha
  | cons a pages ih =>
    obtain ⟨x, xs, rfl, hx, hxs⟩ := List.map_eq_cons_iff.mp hxs
    intro c'
    obtain ⟨hpasses, hend⟩ := exchange_passes (P := image.Fresh mem) hc x
      fun d hflash _ hholds k => by
        rw [hx] at hholds
        cases hholds with
        | erasePage hcmd harg ha =>
          rw [attemptLog_erasePage hcmd harg]
          rw [← hflash] at hP
          rcases replay_take_erase d.flash.faults d.flash.array d.dfu.cmdArg k with h | h
          · rw [h]
            exact hP
          · rw [h]
            exact hP.erase_page _
    have hsplit : c' = StepSystem.run coreStep (StepSystem.run coreStep c x.events)
        (xs.flatMap HostExchange.events) := by
      rw [← StepSystem.run_append, ← List.flatMap_cons]
    rcases hend with herror | ⟨hready, hview⟩
    · rw [hsplit, exchanges_in_error herror]
      exact ⟨hpasses, Or.inl herror⟩
    · obtain ⟨hpasses', hend'⟩ := ih hready hxs hpasses.mem_end
      rw [hsplit]
      refine ⟨hpasses.trans hpasses', hend'.imp_right fun h => ⟨h.1, fun hfirst => h.2 ?_⟩⟩
      rw [hx] at hview
      have hmem := erased_of_ready hready hview
      rw [hmem]
      rcases overwrite_page_vectors image c.flash.mem (a.toNat / 2048) with hpage | hpage
      · exact Or.inl hpage
      · rcases hfirst with hpartly | ⟨b, hb, hbpage⟩
        · exact Or.inl (hpartly.congr hpage)
        · rcases List.mem_cons.mp hb with rfl | hb
          · exact Or.inl (partly_erased_page image hbpage _)
          · exact Or.inr ⟨b, hb, hbpage⟩

/-- Erasing the page of the vectors first clears them before anything else changes. -/
theorem erases_pass_first {a : UInt32} (ha : a.toNat / 2048 = 0x08003000 / 2048)
    (pages : List UInt32) (hc : c.Ready) {xs : List HostExchange}
    (hxs : xs.map HostExchange.command = (a :: pages).map .erasePage) :
    let c' := StepSystem.run coreStep c (xs.flatMap HostExchange.events)
    Passes (fun m => m = c.flash.mem ∨ image.Partly 0 m) c c' ∧
      (c'.dfu.state = .error ∨ c'.Ready ∧ image.Partly 0 c'.flash.mem) := by
  obtain ⟨x, xs, rfl, hx, hxs⟩ := List.map_eq_cons_iff.mp hxs
  intro c'
  obtain ⟨hpasses, hend⟩ := exchange_passes
    (P := fun m => m = c.flash.mem ∨ image.Partly 0 m) hc x fun d hflash _ hholds k => by
      rw [hx] at hholds
      cases hholds with
      | erasePage hcmd harg ha' =>
        rw [attemptLog_erasePage hcmd harg, ha']
        rcases replay_take_erase d.flash.faults d.flash.array a k with h | h
        · refine Or.inl (h.trans ?_)
          rw [hflash]
          rfl
        · rw [h]
          exact Or.inr (partly_erased_page image ha _)
  have hsplit : c' = StepSystem.run coreStep (StepSystem.run coreStep c x.events)
      (xs.flatMap HostExchange.events) := by
    rw [← StepSystem.run_append, ← List.flatMap_cons]
  rcases hend with herror | ⟨hready, hview⟩
  · rw [hsplit, exchanges_in_error herror]
    exact ⟨hpasses, Or.inl herror⟩
  · rw [hx] at hview
    have hpartly : image.Partly 0 (StepSystem.run coreStep c x.events).flash.mem := by
      rw [erased_of_ready hready hview]
      exact partly_erased_page image ha _
    obtain ⟨hpasses', hend'⟩ := erases_pass (StepSystem.run coreStep c x.events).flash.mem pages
      hready hxs (Or.inr hpartly)
    rw [hsplit]
    refine ⟨hpasses.trans (hpasses'.mono fun m hm => Or.inr ?_),
      hend'.imp_right fun h => ⟨h.1, h.2 (Or.inl hpartly)⟩⟩
    exact hm.elim (fun hk => hpartly.congr hk) id

/-- Writing the blocks completes the vectors from their beginning on. -/
theorem writes_pass (order : List (Fin image.blocks)) {c : Core} (hc : c.Ready)
    {xs : List HostExchange}
    (hxs : xs.map HostExchange.command = order.flatMap image.writeBlock)
    (hP : ∃ n, image.Partly (2 * n) c.flash.mem) :
    Passes (fun m => ∃ n, image.Partly (2 * n) m) c
      (StepSystem.run coreStep c (xs.flatMap HostExchange.events)) := by
  induction order generalizing c xs with
  | nil =>
    obtain rfl := List.map_eq_nil_iff.mp hxs
    exact .of_flash_eq rfl hP
  | cons k order ih =>
    obtain ⟨x, xs, rfl, hx, hxs⟩ := List.map_eq_cons_iff.mp hxs
    obtain ⟨y, xs, rfl, hy, hxs⟩ := List.map_eq_cons_iff.mp hxs
    obtain ⟨hpasses, hend⟩ := exchange_passes (P := fun m => ∃ n, image.Partly (2 * n) m) hc x
      fun d hflash _ hholds j => by
        rw [hx] at hholds
        cases hholds with
        | setAddress hcmd harg ha =>
          rw [attemptLog_setAddress hcmd, List.take_nil, replay_nil, hflash]
          exact hP
    rw [List.flatMap_cons, List.flatMap_cons, StepSystem.run_append, StepSystem.run_append]
    rcases hend with herror | ⟨hready, hview⟩
    · rw [← StepSystem.run_append, ← List.flatMap_cons, exchanges_in_error herror]
      exact hpasses
    rw [hx] at hview
    have hptr := congrArg Reference.pointer hview
    obtain ⟨hpasses', hend'⟩ := exchange_passes (P := fun m => ∃ n, image.Partly (2 * n) m) hready y
      fun d hflash hsame hholds j => by
        rw [hy] at hholds
        exact holds_writeBlock_partly k hholds (hsame.trans hptr)
          (by rw [hflash]; exact hpasses.mem_end) j
    rcases hend' with herror | ⟨hready', -⟩
    · rw [exchanges_in_error herror]
      exact hpasses.trans hpasses'
    · exact hpasses.trans (hpasses'.trans (ih hready' hxs hpasses'.mem_end))

end Exchanges

namespace Update

variable {image : Image} (u : Update image)

theorem exchanges_eq : ∃ xs ys, u.exchanges = xs ++ ys ∧
    xs.map HostExchange.command = u.plan.pages.map .erasePage ∧
    ys.map HostExchange.command = u.plan.order.flatMap image.writeBlock := by
  obtain ⟨xs, ys, heq, hxs, hys⟩ := List.map_eq_append_iff.mp u.commands
  exact ⟨xs, ys, heq, hxs, hys⟩

/-- The flash after a power cut that leaves the first `k` entries of the session's log. -/
def afterPowerCut (mem : ℕ → UInt8) (faults : ℕ → Fault) (k : ℕ) : ℕ → UInt8 :=
  ((FlashArray.mk mem 0).replay faults
    (((Machine.start mem faults).run u.session).core.flash.log.take k)).mem

/-- What the erases and the blocks pass through, the update passes through. -/
theorem afterPowerCut_of_passes {P Q : (ℕ → UInt8) → Prop} (mem : ℕ → UInt8) (faults : ℕ → Fault)
    (hPQ : ∀ m, P m → Q m) (hwrites : ∀ m, (∃ n, image.Partly (2 * n) m) → Q m)
    (herases : ∀ xs : List HostExchange, xs.map HostExchange.command = u.plan.pages.map .erasePage →
      let c := (Machine.start mem faults).core
      let c' := StepSystem.run coreStep c (xs.flatMap HostExchange.events)
      Passes P c c' ∧ (c'.dfu.state = .error ∨ c'.Ready ∧ image.Partly 0 c'.flash.mem)) (k : ℕ) :
    Q (u.afterPowerCut mem faults k) := by
  have hq := Machine.start_quiet mem faults
  obtain ⟨xs, ys, heq, hxs, hys⟩ := u.exchanges_eq
  have hcore := (Machine.run_traffic hq u.traffic).1
  rw [heq, List.flatMap_append, StepSystem.run_append] at hcore
  obtain ⟨hpasses, hend⟩ := herases xs hxs
  have hall : Passes Q (Machine.start mem faults).core
      ((Machine.start mem faults).run u.session).core := by
    rw [hcore]
    rcases hend with herror | ⟨hready, hpartly⟩
    · rw [exchanges_in_error herror]
      exact hpasses.mono hPQ
    · exact (hpasses.mono hPQ).trans
        ((writes_pass u.plan.order hready hys ⟨0, hpartly⟩).mono hwrites)
  obtain ⟨new, hlog, -, -, hQ⟩ := hall
  have hnew : ((Machine.start mem faults).run u.session).core.flash.log = new := hlog
  unfold afterPowerCut
  rw [hnew]
  exact hQ k

theorem vectors_of_partly {m : ℕ → UInt8} (h : ∃ n, image.Partly (2 * n) m)
    (hvalid : appValid m = true) : appSp m = image.sp ∧ appReset m = image.reset := by
  obtain ⟨n, hpartly⟩ := h
  by_cases hn : n < 4
  · rw [hpartly.not_appValid hn] at hvalid
    cases hvalid
  · refine image.vectors_installed fun i hi => ?_
    rw [hpartly i hi, if_pos (by omega)]

theorem afterPowerCut_cases (mem : ℕ → UInt8) (faults : ℕ → Fault) (k : ℕ) :
    KeepsVectors mem (u.afterPowerCut mem faults k) ∨
      ∃ n, image.Partly (2 * n) (u.afterPowerCut mem faults k) := by
  have hready : (Machine.start mem faults).core.Ready :=
    (Machine.SessionStart.init mem faults).ready.1
  have herased : ∃ a ∈ u.plan.pages, a.toNat / 2048 = 0x08003000 / 2048 := by
    have hvectors := image.vectors
    exact u.plan.erases 0 (by omega)
  refine u.afterPowerCut_of_passes (P := image.Fresh mem)
    (Q := fun m => KeepsVectors mem m ∨ ∃ n, image.Partly (2 * n) m) mem faults
    (fun m hm => hm.imp_right fun h => ⟨0, h⟩) (fun m hm => Or.inr hm) (fun xs hxs => ?_) k
  obtain ⟨hpasses, hend⟩ := erases_pass mem u.plan.pages hready hxs (Or.inl fun _ _ => rfl)
  exact ⟨hpasses, hend.imp_right fun h => ⟨h.1, h.2 (Or.inr herased)⟩⟩

/-- The host erases the page of the vectors first. -/
def VectorsFirst : Prop := ∃ a ∈ u.plan.pages.head?, a.toNat / 2048 = 0x08003000 / 2048

instance : Decidable u.VectorsFirst :=
  inferInstanceAs (Decidable (∃ a ∈ u.plan.pages.head?, a.toNat / 2048 = 0x08003000 / 2048))

theorem afterPowerCut_of_vectorsFirst (h : u.VectorsFirst) (mem : ℕ → UInt8)
    (faults : ℕ → Fault) (k : ℕ) :
    u.afterPowerCut mem faults k = mem ∨
      ∃ n, image.Partly (2 * n) (u.afterPowerCut mem faults k) := by
  have hready : (Machine.start mem faults).core.Ready :=
    (Machine.SessionStart.init mem faults).ready.1
  obtain ⟨a, ha, hpage⟩ := h
  obtain ⟨pages, hpages⟩ : ∃ pages, u.plan.pages = a :: pages := by
    cases h : u.plan.pages with
    | nil =>
      rw [h] at ha
      cases ha
    | cons b pages =>
      rw [h] at ha
      obtain rfl := Option.some.inj ha
      exact ⟨pages, rfl⟩
  refine u.afterPowerCut_of_passes (P := fun m => m = mem ∨ image.Partly 0 m)
    (Q := fun m => m = mem ∨ ∃ n, image.Partly (2 * n) m) mem faults
    (fun m hm => hm.imp_right fun h => ⟨0, h⟩) (fun m hm => Or.inr hm) (fun xs hxs => ?_) k
  rw [hpages] at hxs
  exact erases_pass_first hpage pages hready hxs

/-- After a power cut between any two logged operations of an update, a page erase or a half-word,
under any flash errors and any order of the blocks, no boot runs a mixture of the old and the new
vectors. If the host erases the page of the vectors first, any boot, also one into DFU mode, finds
the flash as it was before the update, vectors it will not run, or those of the new application; a
boot that runs another application finds the flash as it was. -/
theorem power_cut_runs_no_mixture (mem : ℕ → UInt8) (faults : ℕ → Fault) (k : ℕ)
    (cfg : BuildConfig) (p : Retained) (i : BootInput) (hi : i.mem = u.afterPowerCut mem faults k) :
    (∀ sp pc, (p.boot cfg i).2 = .jump sp pc →
        sp = appSp mem ∧ pc = appReset mem ∨ sp = image.sp ∧ pc = image.reset) ∧
      (u.VectorsFirst →
        (i.mem = mem ∨ appValid i.mem = false ∨
          appSp i.mem = image.sp ∧ appReset i.mem = image.reset) ∧
        ∀ sp pc, (p.boot cfg i).2 = .jump sp pc →
          i.mem = mem ∨ sp = image.sp ∧ pc = image.reset) := by
  have hvectors {sp pc : UInt32} (hjump : (p.boot cfg i).2 = .jump sp pc) :
      appValid i.mem = true ∧ sp = appSp i.mem ∧ pc = appReset i.mem := by
    obtain ⟨hvalid, -, hsp, hpc⟩ := ((p.board i).main_eq_jump_iff cfg).mp hjump
    exact ⟨hvalid, hsp, hpc⟩
  constructor
  · intro sp pc hjump
    obtain ⟨hvalid, rfl, rfl⟩ := hvectors hjump
    have hcut := u.afterPowerCut_cases mem faults k
    rw [← hi] at hcut
    exact hcut.imp appVectors_congr fun hpartly => vectors_of_partly hpartly hvalid
  · intro hfirst
    have hcut := u.afterPowerCut_of_vectorsFirst hfirst mem faults k
    rw [← hi] at hcut
    refine ⟨hcut.imp_right fun hpartly => ?_, fun sp pc hjump => ?_⟩
    · by_cases hvalid : appValid i.mem = true
      · exact Or.inr (vectors_of_partly hpartly hvalid)
      · exact Or.inl (Bool.eq_false_iff.mpr hvalid)
    · obtain ⟨hvalid, rfl, rfl⟩ := hvectors hjump
      exact hcut.imp_right fun hpartly => vectors_of_partly hpartly hvalid

end Update

def cutShort : ℕ → UInt8 := tinyUpdate.afterPowerCut (fun _ => 0x55) (fun _ => Fault.none) 7

theorem cut_short_runs_no_mixture :
    (appSp cutShort = appSp (fun _ => 0x55) ∧ appReset cutShort = appReset (fun _ => 0x55) ∨
        appSp cutShort = tinyImage.sp ∧ appReset cutShort = tinyImage.reset) ∧
      (cutShort = (fun _ => 0x55) ∨
        appSp cutShort = tinyImage.sp ∧ appReset cutShort = tinyImage.reset) := by
  have hvalid : appValid cutShort = true := by decide +kernel
  have hjump : (Retained.boot ⟨false, false⟩ ⟨0, fun _ => 0x00FF⟩ (tinyBoot cutShort)).2 =
      .jump (appSp cutShort) (appReset cutShort) := Retained.boot_jumps rfl (by decide) hvalid
  obtain ⟨hmixture, hfirst⟩ := tinyUpdate.power_cut_runs_no_mixture (fun _ => 0x55)
    (fun _ => Fault.none) 7 ⟨false, false⟩ ⟨0, fun _ => 0x00FF⟩ (tinyBoot cutShort) rfl
  exact ⟨hmixture _ _ hjump, (hfirst (by decide)).2 _ _ hjump⟩

end NovaBootloader
