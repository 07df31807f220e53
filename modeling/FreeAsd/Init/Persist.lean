import FreeAsd.Block.GptLayout
import FreeAsd.Usr.PasswdRoundTrip

/-!
# The user database on an installed disk

`persist_users` of `init/installer.c` writes the user database behind the primary table of partitions, from
where it is loaded (`boot_loads_primary`), and over the backup of the table (`not_persisted`). Lines that do
not fit the buffer are cut off (`untruncated_iff`).
-/

namespace FreeAsd.Init

open Block Usr List

/-- `PASSWD_LBA`. -/
abbrev passwdLba : ℕ := 34

/-- `PASSWD_SECS`. -/
abbrev passwdSecs : ℕ := 8

/-- The bytes of a slot. -/
abbrev passwdSize : ℕ := 4096

/-- `HOSTNAME_OFFSET`. -/
abbrev hostnameOffset : ℕ := 4032

/-- `passwd_db_magic_ok`. -/
def passwdDbMagicOk (buf : List UInt8) : Bool := buf.take 7 = cstr "#ASDPW1"

/-- `passwd_buf_has_root_account`. -/
def passwdBufHasRootAccount (buf : List UInt8) : Bool :=
  16 ≤ buf.length ∧ passwdDbMagicOk buf ∧ buf.tails.any fun p => (cstr "root 0 0").isPrefixOf p

/-- The buffer of `persist_users`: the text, zeros after it, and the name of the machine at the end if
the text leaves room for it. -/
def passwdBuf (g_hostname : CStr) (text : List UInt8) : List UInt8 :=
  let buf := (text ++ List.replicate passwdSize 0).take passwdSize
  if hostnameOffset ≤ text.length then buf
  else buf.take hostnameOffset ++ (g_hostname.take 63 ++ 0 ::
    buf.drop (hostnameOffset + (g_hostname.take 63).length + 1))

/-- `persist_users`. That the second write fails is not an error. -/
def persistUsers (g_hostname : CStr) (users : List Account) (target : BlockDev) : ℤ × BlockDev :=
  match usrWritePasswd passwdSize users with
  | none => (-1, target)
  | some text =>
    match target.write passwdLba (passwdBuf g_hostname text) with
    | (false, target) => (-1, target)
    | (true, target) =>
      match target.read passwdLba passwdSecs with
      | (none, target) => (-1, target)
      | (some verify, target) =>
        if !passwdBufHasRootAccount verify then (-1, target)
        else if passwdLba + passwdSecs + 64 ≤ target.sector_count then
          (0, (target.write (target.sector_count - passwdSecs) (passwdBuf g_hostname text)).2)
        else (0, target)

/-- A letter or a digit. -/
def isAlnum (c : UInt8) : Bool := (97 ≤ c ∧ c ≤ 122) ∨ (65 ≤ c ∧ c ≤ 90) ∨ (48 ≤ c ∧ c ≤ 57)

/-- `passwd_apply_hostname_from_raw`. -/
def passwdApplyHostnameFromRaw (raw : List UInt8) (g_hostname : CStr) : CStr :=
  let h := ((raw.drop hostnameOffset).take 63).takeWhile (· ≠ 0)
  if passwdDbMagicOk raw ∧ h.head?.any isAlnum then h else g_hostname

/-- What a boot reads from the disk: the accounts and the name of the machine. -/
structure Loaded where
  db : Db
  g_hostname : CStr

/-- `passwd_load_slot`. -/
def passwdLoadSlot (dev : BlockDev) (lba : ℕ) (st : Loaded) : ℤ × BlockDev × Loaded :=
  match dev.read lba passwdSecs with
  | (none, dev) => (-1, dev, st)
  | (some raw, dev) =>
    if !passwdBufHasRootAccount raw then (-1, dev, st)
    else
      let (db, n) := usrLoadPasswd ((raw.take (passwdSize - 1)).takeWhile (· ≠ 0)) st.db
      (n, dev, ⟨db, if 0 < n then passwdApplyHostnameFromRaw raw st.g_hostname else st.g_hostname⟩)

/-- `boot_try_load_passwd_from_dev`. -/
def bootTryLoadPasswdFromDev (dev : BlockDev) (st : Loaded) : ℤ × BlockDev × Loaded :=
  let (n, dev, st) := passwdLoadSlot dev passwdLba st
  if 0 < n then (1, dev, st)
  else if passwdLba + passwdSecs + 64 ≤ dev.sector_count then
    let (n, dev, st) := passwdLoadSlot dev (dev.sector_count - passwdSecs) st
    if 0 < n then (1, dev, st) else (0, dev, st)
  else (0, dev, st)

/-! ## What saving should do -/

/-- A boot from a disk that does not fail loads the accounts of a text. -/
def Loads (d : Sectors) (dev : BlockDev) (text : List UInt8) : Prop :=
  ∀ st : Loaded, (bootTryLoadPasswdFromDev { dev with sectors := d, faults := [] } st).1 = 1 ∧
    (bootTryLoadPasswdFromDev { dev with sectors := d, faults := [] } st).2.2.db =
      (usrLoadPasswd text st.db).1

/-- The first slot is erased. -/
def erasePrimary (d : Sectors) : Sectors := fun s =>
  if passwdLba ≤ s ∧ s < passwdLba + passwdSecs then List.replicate sectorSize 0 else d s

/-- The database was saved: both copies of the table of partitions are as before, no sector of a
partition was changed, and either slot is enough to load the accounts. -/
structure Persisted (before after : BlockDev) (users : List Account) : Prop where
  table : ∀ s, 1 ≤ s ∧ s < 34 ∨ before.sector_count - 33 ≤ s ∧ s < before.sector_count →
    after.sectors s = before.sectors s
  partitions : ∀ i < 2, ∀ s, (partition before.sectors (primaryOn before.sectors) i).1 ≤ s →
    s ≤ (partition before.sectors (primaryOn before.sectors) i).2 → after.sectors s = before.sectors s
  primary : ∀ text, usrWritePasswd passwdSize users = some text → Loads after.sectors after text
  backup : ∀ text, usrWritePasswd passwdSize users = some text →
    Loads (erasePrimary after.sectors) after text

/-! ## What it does -/

section

variable {dev dev' : BlockDev} {users : List Account} {g_hostname : CStr} {text : List UInt8}

/-- The text with the zeros after it fills the buffer. -/
theorem length_padded (text : List UInt8) :
    ((text ++ List.replicate passwdSize 0).take passwdSize).length = passwdSize := by
  rw [length_take, length_append, length_replicate]
  omega

/-- And so it does with the name of the machine. -/
theorem length_passwdBuf (g_hostname : CStr) (text : List UInt8) :
    (passwdBuf g_hostname text).length = passwdSize := by
  unfold passwdBuf
  split_ifs with hlong
  · exact length_padded text
  · have hname : (g_hostname.take 63).length ≤ 63 := length_take_le _ _
    rw [length_append, length_append, length_cons, length_drop, length_take, length_padded]
    simp only [hostnameOffset, passwdSize]
    omega

/-- If saving succeeds, then the buffer was written to the first slot and read back, and the second slot
is all else that may have changed. -/
theorem persistUsers_zero (h : persistUsers g_hostname users dev = (0, dev')) :
    ∃ text, usrWritePasswd passwdSize users = some text ∧
      passwdBufHasRootAccount (passwdBuf g_hostname text) = true ∧
      dev'.sector_count = dev.sector_count ∧
      ∀ s, s < dev.sector_count - passwdSecs ∨ dev.sector_count ≤ s ∨ dev.sector_count < 106 →
        dev'.sectors s = putSectors dev.sectors passwdLba (passwdBuf g_hostname text) s := by
  unfold persistUsers at h
  split at h
  next => cases h
  next text htext =>
    refine ⟨text, htext, ?_⟩
    split at h
    next => cases h
    next dev₁ hwrite =>
      obtain ⟨hsectors₁, hcount₁⟩ := BlockDev.write_true hwrite
      split at h
      next => cases h
      next verify dev₂ hread =>
        obtain ⟨hverify, hsectors₂⟩ := BlockDev.read_some hread
        have hcount₂ : dev₂.sector_count = dev.sector_count := by
          have := (BlockDev.read_snd dev₁ passwdLba passwdSecs).2
          rw [hread] at this
          exact this.trans hcount₁
        have hbuf : verify = passwdBuf g_hostname text := by
          rw [hverify, hsectors₁, getSectors_putSectors (length_passwdBuf ..)]
        have hput : dev₂.sectors = putSectors dev.sectors passwdLba (passwdBuf g_hostname text) :=
          hsectors₂.trans hsectors₁
        split_ifs at h with hroot hroom
        · cases h
        · rw [Bool.not_eq_true', Bool.not_eq_false, hbuf] at hroot
          obtain rfl := (Prod.mk.inj h).2
          refine ⟨hroot, (BlockDev.write_sector_count rfl).trans hcount₂, fun s hs => ?_⟩
          rw [← hput]
          apply BlockDev.write_of_notMem rfl
          rw [length_passwdBuf]
          simp only [passwdLba, passwdSecs, passwdSize, sectorSize] at hroom hs ⊢
          omega
        · rw [Bool.not_eq_true', Bool.not_eq_false, hbuf] at hroot
          obtain rfl := (Prod.mk.inj h).2
          exact ⟨hroot, hcount₂, fun s _ => by rw [hput]⟩

/-- Saving changes nothing outside the two slots. -/
theorem persistUsers_frame (h : persistUsers g_hostname users dev = (0, dev')) {s : ℕ}
    (hs : s < 34 ∨ 42 ≤ s) (htail : s < dev.sector_count - 8 ∨ dev.sector_count ≤ s) :
    dev'.sectors s = dev.sectors s := by
  obtain ⟨text, -, -, -, hput⟩ := persistUsers_zero h
  rw [hput s (by simp only [passwdSecs]; omega)]
  apply putSectors_of_notMem
  rw [length_passwdBuf]
  simp only [passwdLba, passwdSize, sectorSize]
  omega

/-! ## The second slot -/

theorem passwdLoadSlot_of_magic {lba : ℕ} {st : Loaded} (hfaults : dev.faults = [])
    (h : passwdDbMagicOk (getSectors dev.sectors lba passwdSecs) = false) :
    passwdLoadSlot dev lba st = (-1, dev, st) := by
  have hread : dev.read lba passwdSecs = (some (getSectors dev.sectors lba passwdSecs), dev) := by
    cases dev
    simp only at hfaults
    subst hfaults
    rfl
  have hroot : passwdBufHasRootAccount (getSectors dev.sectors lba passwdSecs) = false := by
    unfold passwdBufHasRootAccount
    rw [h]
    simp
  unfold passwdLoadSlot
  rw [hread]
  dsimp only
  rw [hroot]
  rfl

/-- A slot that begins with zeros has no database. -/
theorem magic_of_zeros {d : Sectors} {lba : ℕ} (h : d lba = List.replicate sectorSize 0) :
    passwdDbMagicOk (getSectors d lba passwdSecs) = false := by
  have hfirst : ∃ rest, getSectors d lba passwdSecs = List.replicate 7 0 ++ rest := by
    have hsplit : List.replicate sectorSize (0 : UInt8) = List.replicate 7 0 ++ List.replicate 505 0 := by
      rw [replicate_append_replicate]
    refine ⟨List.replicate 505 0 ++ (List.range 7).flatMap fun i => d (lba + (i + 1)), ?_⟩
    have hrange : List.range passwdSecs = 0 :: (List.range 7).map (· + 1) := rfl
    rw [getSectors, hrange, flatMap_cons, add_zero, h, hsplit, append_assoc, flatMap_map]
  obtain ⟨rest, hrest⟩ := hfirst
  unfold passwdDbMagicOk
  rw [hrest, take_left' length_replicate]
  decide

/-- The array of partitions has zeros from its third sector on. -/
theorem partsBytes_zeros (total : ℕ) :
    ((partsBytes total).drop (sectorSize * 25)).take sectorSize = List.replicate sectorSize 0 := by
  have hfront : (espPart.encode ++ (rootPart total).encode).length = 256 := by
    rw [length_append, length_espPart, length_rootPart]
  unfold partsBytes
  rw [← append_assoc, drop_append, drop_of_length_le (by rw [hfront]; decide), hfront,
    nil_append, drop_replicate, take_replicate]
  rfl

/-- The second slot begins in the backup of the array, where it is zero. -/
theorem backup_zeros {disk : BlockDev} (hblank : disk.Blank) (hinit : gptInitSingleDisk disk = (0, dev)) :
    1049634 ≤ dev.sector_count ∧
      dev.sectors (dev.sector_count - passwdSecs) = List.replicate sectorSize 0 := by
  obtain ⟨hmin, hcount, hsectors⟩ := gptInitSingleDisk_zero hblank hinit
  generalize htotal : disk.sector_count = total
  have hparts : (total - 33 + 25, ((partsBytes total).drop (sectorSize * 25)).take sectorSize) ∈
      partsWrites total (total - 33) := mem_map.mpr ⟨25, by decide, rfl⟩
  have hmem : (total - 33 + 25, ((partsBytes total).drop (sectorSize * 25)).take sectorSize) ∈
      gptWrites total := by
    exact mem_cons_of_mem _ (mem_append_right _ (mem_cons_of_mem _ (mem_append_left _ hparts)))
  have hat := putEach_of_mem (d := disk.sectors) (nodup_gptWrites (by omega)) hmem
  have hlba : total - 33 + 25 = total - passwdSecs := by
    simp only [passwdSecs]
    omega
  rw [hcount, hsectors, htotal]
  refine ⟨htotal ▸ hmin, ?_⟩
  rw [← hlba, hat, partsBytes_zeros]

/-- No disk keeps the backup of its table and gets a second copy of the database. -/
theorem not_persisted {disk : BlockDev} (hblank : disk.Blank) (hinit : gptInitSingleDisk disk = (0, dev))
    (h : persistUsers g_hostname users dev = (0, dev')) : ¬Persisted dev dev' users := by
  intro hok
  obtain ⟨text, htext, -, hcount', -⟩ := persistUsers_zero h
  obtain ⟨hmin, hzero⟩ := backup_zeros hblank hinit
  have hkept : dev'.sectors (dev'.sector_count - passwdSecs) = List.replicate sectorSize 0 := by
    rw [hcount', hok.table _ (.inr (by simp only [passwdSecs]; omega)), hzero]
  generalize herased : { dev' with
    sectors := erasePrimary dev'.sectors, faults := [] } = erased
  have hfaults : erased.faults = [] := by rw [← herased]
  have hcountE : erased.sector_count = dev.sector_count := by rw [← herased]; exact hcount'
  have hfirst : erased.sectors passwdLba = List.replicate sectorSize 0 := by
    rw [← herased]
    dsimp only [erasePrimary]
    rw [if_pos (by decide)]
  have hsecond : erased.sectors (erased.sector_count - passwdSecs) = List.replicate sectorSize 0 := by
    rw [hcountE, ← hcount', ← herased]
    dsimp only [erasePrimary]
    rw [if_neg (by simp only [passwdLba, passwdSecs]; omega), hkept]
  have hboot : ∀ st, (bootTryLoadPasswdFromDev erased st).1 = 0 := by
    intro st
    unfold bootTryLoadPasswdFromDev
    rw [passwdLoadSlot_of_magic hfaults (magic_of_zeros hfirst)]
    dsimp only
    rw [if_neg (by decide), passwdLoadSlot_of_magic hfaults (magic_of_zeros hsecond)]
    rw [if_neg (show ¬(0 : ℤ) < -1 by decide)]
    split_ifs
    · rfl
    · rfl
  have hone := (hok.backup text htext ⟨⟨[], fun _ => 0⟩, []⟩).1
  rw [herased, hboot] at hone
  cases hone

/-! ## The first slot -/

/-- The buffer begins with the text and its terminator, if there is room for them. -/
theorem passwdBuf_eq_append (g_hostname : CStr) (hlen : text.length < passwdSize) :
    ∃ rest, passwdBuf g_hostname text = text ++ 0 :: rest := by
  obtain ⟨k, hk⟩ : ∃ k, passwdSize - text.length = k + 1 := ⟨passwdSize - text.length - 1, by omega⟩
  have hbuf : (text ++ List.replicate passwdSize 0).take passwdSize = text ++ 0 :: List.replicate k 0 := by
    rw [take_append, take_of_length_le hlen.le, take_replicate,
      Nat.min_eq_left (Nat.sub_le ..), hk, replicate_succ]
  unfold passwdBuf
  dsimp only
  rw [hbuf]
  split_ifs with hlong
  · exact ⟨_, rfl⟩
  obtain ⟨j, hj⟩ : ∃ j, hostnameOffset - text.length = j + 1 :=
    ⟨hostnameOffset - text.length - 1, by omega⟩
  rw [take_append, take_of_length_le (Nat.le_of_not_le hlong), hj, take_succ_cons, append_assoc, cons_append]
  exact ⟨_, rfl⟩

theorem takeWhile_passwdBuf (g_hostname : CStr) (hzero : (0 : UInt8) ∉ text) (hlen : text.length < passwdSize) :
    ((passwdBuf g_hostname text).take (passwdSize - 1)).takeWhile (· ≠ 0) = text := by
  obtain ⟨rest, hrest⟩ := passwdBuf_eq_append g_hostname hlen
  generalize hk : passwdSize - 1 - text.length = k
  rw [hrest, take_append, take_of_length_le (by omega), hk, takeWhile_append_of_pos (decide_ne_of_notMem hzero)]
  cases k with
  | zero => rw [take_zero, takeWhile_nil, append_nil]
  | succ k => rw [take_succ_cons, takeWhile_cons_of_neg (by decide), append_nil]

/-- If saving succeeds, then the buffer is in the first slot. -/
theorem getSectors_persistUsers (h : persistUsers g_hostname users dev = (0, dev')) :
    ∃ text, usrWritePasswd passwdSize users = some text ∧
      passwdBufHasRootAccount (passwdBuf g_hostname text) = true ∧
      getSectors dev'.sectors passwdLba passwdSecs = passwdBuf g_hostname text := by
  obtain ⟨text, htext, hroot, -, hput⟩ := persistUsers_zero h
  have hsame : ∀ i < passwdSecs, dev'.sectors (passwdLba + i) =
      putSectors dev.sectors passwdLba (passwdBuf g_hostname text) (passwdLba + i) :=
    fun i hi => hput _ (by simp only [passwdLba, passwdSecs] at *; omega)
  refine ⟨text, htext, hroot, ?_⟩
  rw [getSectors_congr hsame]
  exact getSectors_putSectors (length_passwdBuf ..)

/-- The accounts that were saved are loaded from the first slot, if their text fits it. -/
theorem boot_loads_primary {db : Db} (hdb : db.Wf) (hfits : (passwdText db.users).length < passwdSize)
    (h : persistUsers g_hostname db.users dev = (0, dev')) :
    Loads dev'.sectors dev' (passwdText db.users) := by
  obtain ⟨text, htext, hroot, hslot⟩ := getSectors_persistUsers h
  rw [usrWritePasswd_eq hfits] at htext
  cases htext
  intro st
  have hread : BlockDev.read { dev' with faults := [] } passwdLba passwdSecs =
      (some (passwdBuf g_hostname (passwdText db.users)), { dev' with faults := [] }) := by
    rw [← hslot]
    rfl
  have hload := takeWhile_passwdBuf g_hostname (zero_notMem_passwdText hdb.fits) hfits
  have hpos := usrLoadPasswd_pos hdb st.db
  unfold bootTryLoadPasswdFromDev passwdLoadSlot
  rw [hread]
  dsimp only
  rw [hroot, hload]
  simp [hpos]

/-! ## A disk -/

/-- Saving to a disk that does not fail. -/
theorem persistUsers_of_faults (hfaults : dev.faults = []) (htext : usrWritePasswd passwdSize users = some text)
    (hroot : passwdBufHasRootAccount (passwdBuf g_hostname text) = true) (hroom : 106 ≤ dev.sector_count) :
    persistUsers g_hostname users dev = (0, { dev with
      sectors := putSectors (putSectors dev.sectors passwdLba (passwdBuf g_hostname text))
        (dev.sector_count - passwdSecs) (passwdBuf g_hostname text) }) := by
  obtain ⟨size, count, sectors, faults, hlt⟩ := dev
  obtain rfl : faults = [] := hfaults
  have hread : getSectors (putSectors sectors passwdLba (passwdBuf g_hostname text)) passwdLba passwdSecs =
      passwdBuf g_hostname text := getSectors_putSectors (length_passwdBuf g_hostname text)
  unfold persistUsers
  rw [htext]
  dsimp only [BlockDev.write, BlockDev.read, tail_nil]
  rw [hread, hroot]
  exact if_pos hroom

end

/-- Accounts are saved to a disk of a gibibyte. -/
theorem persistUsers_gibibyte : ∃ dev,
    gptInitSingleDisk (zeroDisk (2^21) (by decide)) = (0, dev) ∧ dev.sector_count = 2^21 ∧
    persistUsers (cstr "asd") (usrInit fun _ => 7).users dev = (0, { dev with
      sectors := putSectors (putSectors dev.sectors passwdLba
        (passwdBuf (cstr "asd") (passwdText (usrInit fun _ => 7).users))) (dev.sector_count - passwdSecs)
        (passwdBuf (cstr "asd") (passwdText (usrInit fun _ => 7).users)) }) := by
  have hblank := blank_zeroDisk (2^21) (by decide)
  obtain ⟨dev, hinit, hfaults⟩ := gptInitSingleDisk_of_faults hblank rfl (by decide : 1049634 ≤ 2^21) rfl
  have hcount : dev.sector_count = 2^21 := (gptInitSingleDisk_zero hblank hinit).2.1
  have htext : usrWritePasswd passwdSize (usrInit fun _ => 7).users =
      some (passwdText (usrInit fun _ => 7).users) := usrWritePasswd_eq (by decide +kernel)
  exact ⟨dev, hinit, hcount, persistUsers_of_faults hfaults htext (by decide +kernel) (by rw [hcount]; decide)⟩

/-- A boot then loads them. -/
theorem loads_gibibyte : ∃ dev dev',
    persistUsers (cstr "asd") (usrInit fun _ => 7).users dev = (0, dev') ∧
    Loads dev'.sectors dev' (passwdText (usrInit fun _ => 7).users) := by
  obtain ⟨dev, -, -, h⟩ := persistUsers_gibibyte
  exact ⟨dev, _, h, boot_loads_primary (wf_usrInit _) (by decide +kernel) h⟩

/-- It has no backup of its table, or no second copy of the accounts. -/
theorem not_persisted_gibibyte : ∃ dev dev',
    gptInitSingleDisk (zeroDisk (2^21) (by decide)) = (0, dev) ∧
    persistUsers (cstr "asd") (usrInit fun _ => 7).users dev = (0, dev') ∧
    ¬Persisted dev dev' (usrInit fun _ => 7).users := by
  obtain ⟨dev, hinit, -, hpersist⟩ := persistUsers_gibibyte
  exact ⟨dev, _, hinit, hpersist, not_persisted (blank_zeroDisk _ _) hinit hpersist⟩

/-- The backup header is overwritten with zeros. -/
theorem backup_header_lost : ∃ dev dev',
    gptInitSingleDisk (zeroDisk (2^21) (by decide)) = (0, dev) ∧
    persistUsers (cstr "asd") (usrInit fun _ => 7).users dev = (0, dev') ∧
    (dev.sectors (2^21 - 1)).take 8 = cstr "EFI PART" ∧
    (dev'.sectors (2^21 - 1)).take 8 = List.replicate 8 0 := by
  obtain ⟨dev, hinit, hcount, hpersist⟩ := persistUsers_gibibyte
  obtain ⟨-, hw⟩ := written_of_init (blank_zeroDisk _ _) hinit
  generalize hbuf : passwdBuf (cstr "asd") (passwdText (usrInit fun _ => 7).users) = buf
  have hlen : buf.length = passwdSize := by rw [← hbuf, length_passwdBuf]
  have hlast : ((buf.drop (sectorSize * 7)).take sectorSize).take 8 = List.replicate 8 0 := by
    rw [← hbuf]
    decide +kernel
  refine ⟨dev, _, hinit, hpersist, ?_, ?_⟩
  · have hbackup : dev.sectors (2^21 - 1) = (backupHeader (2^21)).encode := hw.backup
    rw [hbackup]
    rfl
  · rw [hbuf]
    dsimp only [putSectors]
    rw [hcount, hlen, if_pos (by decide)]
    exact hlast

/-! ## Nothing is cut off -/

/-- All that is written is inside the buffer, the terminator included, and it has the lines of all
accounts. -/
def Untruncated (buf_sz : ℕ) (users : List Account) : Prop :=
  ∀ text, usrWritePasswd buf_sz users = some text → text.length < buf_sz ∧ text = passwdText users

/-- The lines of all accounts are in the first slot. -/
def Stored (dev : BlockDev) (users : List Account) : Prop :=
  passwdText users <+: getSectors dev.sectors passwdLba passwdSecs

/-- From the place of the terminator on there are only blanks. -/
def BlanksFrom (cap : ℕ) (out : List UInt8) : Prop := ∀ b ∈ out.drop cap, b = 32

section

variable {buf_sz cap : ℕ} {out : List UInt8}

/-- What ends before that place has nothing there. -/
theorem blanksFrom_of_length_le (h : out.length ≤ cap) : BlanksFrom cap out := by
  rw [BlanksFrom, drop_eq_nil_of_le h]
  exact nofun

/-- A field is cut off before that place. -/
theorem BlanksFrom.putField {k : ℕ} (h : BlanksFrom cap out) (hk : k ≤ cap) (s : List UInt8) :
    BlanksFrom cap (putField k s out) := by
  unfold Usr.putField
  rcases Nat.le_total k out.length with hle | hle
  · rwa [Nat.sub_eq_zero_of_le hle, take_zero, append_nil]
  · apply blanksFrom_of_length_le
    rw [length_append, length_take]
    omega

/-- A blank is written anywhere. -/
theorem BlanksFrom.blank (h : BlanksFrom cap out) : BlanksFrom cap (out ++ [32]) := by
  intro b hb
  rw [drop_append] at hb
  rcases mem_append.mp hb with hb | hb
  · exact h b hb
  · exact mem_singleton.mp (mem_of_mem_drop hb)

/-- The fields of a line. -/
theorem BlanksFrom.writeFields {k : ℕ} (hk : k ≤ cap) (ss : List CStr) :
    ∀ {out : List UInt8}, BlanksFrom cap out → BlanksFrom cap (writeFields k ss out) := by
  induction ss with
  | nil => exact fun h => h
  | cons s ss ih =>
    intro out h
    cases ss with
    | nil => exact h.putField hk s
    | cons s' ss => exact ih (h.putField hk s).blank

/-- Only blanks are written at the end of the buffer and behind it. -/
theorem blanksFrom_usrWritePasswd {users : List Account} {text : List UInt8}
    (h : usrWritePasswd buf_sz users = some text) : BlanksFrom (buf_sz - 1) text := by
  unfold usrWritePasswd at h
  split_ifs at h
  obtain rfl := Option.some.inj h
  refine foldlRecOn users (writeAccount buf_sz) ?_ fun out hout u _ => ?_
  · exact (blanksFrom_of_length_le (Nat.zero_le _)).putField le_rfl _
  · unfold writeAccount
    dsimp only
    split_ifs with hroom
    · apply blanksFrom_of_length_le
      rw [length_append, length_singleton]
      exact hroom
    · exact hout.writeFields (by omega) _

end

/-- So the last byte of a slot ends no line. -/
theorem getLast_passwdBuf (g_hostname : CStr) {text : List UInt8}
    (h : BlanksFrom (passwdSize - 1) text) : (passwdBuf g_hostname text).getLast? ≠ some 10 := by
  rw [getLast?_eq_getElem?, length_passwdBuf]
  have hbuf : ((text ++ List.replicate passwdSize 0).take passwdSize)[passwdSize - 1]? ≠ some 10 := by
    rw [getElem?_take_of_lt (by decide), getElem?_append]
    split_ifs with hlt
    · intro h10
      have hmem : (10 : UInt8) ∈ text.drop (passwdSize - 1) :=
        mem_of_getElem? (i := 0) (by rw [getElem?_drop]; exact h10)
      exact absurd (h 10 hmem) (by decide)
    · rw [getElem?_replicate_of_lt (Nat.lt_of_le_of_lt (Nat.sub_le _ _) (by decide))]
      decide
  have hsize := length_padded text
  unfold passwdBuf
  dsimp only
  generalize (text ++ List.replicate passwdSize 0).take passwdSize = buf at hbuf hsize
  split_ifs with hlong
  · exact hbuf
  -- Behind the name of the machine there is its terminator, or what was there.
  generalize hname : g_hostname.take 63 = name
  have hle : name.length ≤ 63 := hname ▸ length_take_le _ _
  obtain ⟨k, hk⟩ : ∃ k, name.length + k = 63 := ⟨63 - name.length, by omega⟩
  have hfront : (buf.take hostnameOffset).length = 4032 := by
    rw [length_take, hsize]
    rfl
  rw [getElem?_append_right (by rw [hfront]; decide), hfront,
    getElem?_append_right (show name.length ≤ passwdSize - 1 - 4032 from hle),
    show passwdSize - 1 - 4032 - name.length = k by simp only [passwdSize]; omega]
  cases k with
  | zero =>
    rw [getElem?_cons_zero]
    decide
  | succ k =>
    have hplace : hostnameOffset + name.length + 1 + k = passwdSize - 1 := by
      simp only [hostnameOffset, passwdSize]
      omega
    rw [getElem?_cons_succ, getElem?_drop, hplace]
    exact hbuf

/-- The text of the accounts ends with the end of a line. -/
theorem getLast_passwdText (users : List Account) : (passwdText users).getLast? = some 10 := by
  rcases eq_nil_or_concat users with rfl | ⟨users, u, rfl⟩
  · rfl
  · rw [passwdText, concat_eq_append, flatMap_append, flatMap_singleton, Account.line, ← append_assoc,
      ← append_assoc]
    exact getLast?_concat

/-- For every buffer, nothing is cut off if and only if all lines and the terminator fit; and when saving
succeeds, the lines are on the disk if and only if they fit a slot. -/
theorem untruncated_iff {buf_sz : ℕ} (hbuf : 8 ≤ buf_sz) (users : List Account) :
    (Untruncated buf_sz users ↔ (passwdText users).length < buf_sz) ∧
      ∀ g_hostname dev dev', persistUsers g_hostname users dev = (0, dev') →
        (Stored dev' users ↔ (passwdText users).length < passwdSize) := by
  refine ⟨⟨fun h => ?_, fun hfits text htext => ?_⟩, fun g_hostname dev dev' hpersist => ?_⟩
  · -- `usr_write_passwd` never reports that the buffer is too small.
    obtain ⟨hlt, heq⟩ := h _ (if_neg (Nat.not_lt.mpr hbuf))
    exact heq ▸ hlt
  · rw [usrWritePasswd_eq hfits] at htext
    cases htext
    exact ⟨hfits, rfl⟩
  · obtain ⟨text, htext, -, hslot⟩ := getSectors_persistUsers hpersist
    unfold Stored
    rw [hslot]
    constructor
    · intro hpre
      have hle := hpre.length_le
      rw [length_passwdBuf] at hle
      refine lt_of_le_of_ne hle fun hfull => ?_
      -- Lines that fill the slot would end with its last byte.
      have heq := hpre.eq_of_length (by rw [hfull, length_passwdBuf])
      exact getLast_passwdBuf g_hostname (blanksFrom_usrWritePasswd htext) (heq ▸ getLast_passwdText users)
    · intro hfits
      rw [usrWritePasswd_eq hfits] at htext
      cases htext
      obtain ⟨rest, hrest⟩ := passwdBuf_eq_append g_hostname hfits
      exact ⟨0 :: rest, hrest.symm⟩

theorem untruncated_iff_root : 8 ≤ passwdSize ∧ Untruncated passwdSize (usrInit fun _ => 7).users :=
  ⟨by decide, (untruncated_iff (by decide) _).1.mpr (by decide +kernel)⟩

/-- With a buffer of 8 bytes, the blanks of one account are written behind its end. -/
theorem passwd_overrun : ∃ text, usrWritePasswd 8 (usrInit fun _ => 7).users = some text ∧
    8 < text.length ∧ text ≠ passwdText (usrInit fun _ => 7).users :=
  ⟨_, rfl, by decide +kernel, by decide +kernel⟩

end FreeAsd.Init
