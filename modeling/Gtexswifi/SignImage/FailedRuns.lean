import Gtexswifi.SignImage.MadeCertificates

/-! Files after a failed run. Both tools write over files that they have
truncated, and try to unlink their output when a write fails. -/
namespace SignImage

open Radix

/-- The write `i`, of so many bytes, is complete. -/
def Io.Complete (io : Io) (i count : Nat) : Prop := io.writes i count = count

section Append

variable {io : Io} {i : Nat} {data : List UInt8}

/-- A complete write adds its data to the file. -/
theorem append_of_complete (h : io.Complete i data.length) (file : List UInt8) :
    io.append i file data = (true, file ++ data) := by
  rw [Io.append, h, Int.toNat_natCast, List.take_length]
  exact congrArg (·, _) (decide_eq_true rfl)

/-- Any other write adds as much of its data as it returns, and nothing when
it returns -1. -/
theorem append_of_not_complete (h : ¬io.Complete i data.length) (file : List UInt8) :
    io.append i file data = (false, file ++ data.take (io.writes i data.length).toNat) := by
  rw [Io.append]
  exact congrArg (·, _) (decide_eq_false h)

/-- Such a write leaves some of its data out, unless there was none. -/
theorem toNat_writes_lt {count : Nat} (h : ¬io.Complete i count) (hCount : count ≠ 0) :
    (io.writes i count).toNat < count := by
  have hLe := io.writes_le i count
  rw [Io.Complete] at h
  omega

end Append

/-- A file outlives `unlink` only where that fails. -/
theorem unlink_eq_some {io : Io} {file : Option (List UInt8)} {bytes : List UInt8} :
    io.unlink file = some bytes ↔ io.unlinks = false ∧ file = some bytes := by
  rw [Io.unlink]
  cases io.unlinks <;> simp

section Signing

variable {Key : Type} {openssl : Openssl Key} {io : Io} {slack nextpubk img : List UInt8}
  {imgName : List Char} {inputData payloadAddr cert : List UInt8} {payloadSize certSize : Nat}

/-- The image has been loaded, and the payload in it has been found. -/
structure Prepared (io : Io) (slack img inputData payloadAddr : List UInt8) (payloadSize : Nat) :
    Prop where
  loaded : loadFile io img = some inputData
  window : payloadWindow (inputData ++ slack) inputData.length = .ok (payloadAddr, payloadSize)

/-- The image can be written over. -/
def Io.Rewrites (io : Io) (inputData : List UInt8) : Prop :=
  (∃ fd, io.opens 0 = some (fd + 1)) ∧ io.Complete 0 inputData.length

/-- Header and certificate can be written behind it. -/
def Io.Signs (io : Io) (cert : List UInt8) : Prop :=
  io.Complete 1 signedHeaderSize ∧ io.Complete 2 cert.length

/-- The header behind an image. -/
def signHeader (payloadSize certSize : Nat) (inputData : List UInt8) : List UInt8 :=
  (SignedImageHeader.mk payloadSize sysImgHeaderSize certSize
    (inputData.length + signedHeaderSize)).bytes

theorem length_signHeader : (signHeader payloadSize certSize inputData).length =
    signedHeaderSize := length_signedImageHeader _

/-- An image that cannot be opened is unlinked as it is. -/
theorem Prepared.unopened (h : Prepared io slack img inputData payloadAddr payloadSize)
    (hOpens : io.opens 0 = none) :
    sprdSignimg openssl io slack nextpubk imgName img = .ok (0, io.unlink (some img)) := by
  rw [sprdSignimg, h.loaded]
  simp only [h.window, ok_bind, hOpens, pure_eq_ok]

/-- A descriptor of 0 ends the run over a file that has been truncated. -/
theorem Prepared.truncated (h : Prepared io slack img inputData payloadAddr payloadSize)
    (hOpens : io.opens 0 = some 0) :
    sprdSignimg openssl io slack nextpubk imgName img = .ok (0, some []) := by
  rw [sprdSignimg, h.loaded]
  simp only [h.window, ok_bind, hOpens, pure_eq_ok]

/-- The image is cut where its first write has stopped. -/
theorem Prepared.cut (h : Prepared io slack img inputData payloadAddr payloadSize) {fd : Nat}
    (hOpens : io.opens 0 = some (fd + 1)) (hFails : ¬io.Complete 0 inputData.length) :
    sprdSignimg openssl io slack nextpubk imgName img =
      .ok (0, io.unlink (some (inputData.take (io.writes 0 inputData.length).toNat))) := by
  rw [sprdSignimg, h.loaded]
  simp only [h.window, ok_bind, hOpens, append_of_not_complete hFails, if_true, List.nil_append,
    pure_eq_ok]

/-- The run once the image has been written over: all there is to it is the
certificate, and the two writes. -/
theorem Prepared.rewrites (h : Prepared io slack img inputData payloadAddr payloadSize)
    (hRewrites : io.Rewrites inputData) :
    sprdSignimg openssl io slack nextpubk imgName img = (do
      let (certSize, cert) ← makeCert openssl nextpubk payloadAddr payloadSize (imageClass imgName)
      let (complete, file) := io.append 1 inputData (signHeader payloadSize certSize inputData)
      if complete = false then return (0, io.unlink (some file))
      else
        let (complete, file) := io.append 2 file cert
        if complete = false then return (0, io.unlink (some file))
        else return (1, some file)) := by
  obtain ⟨⟨fd, hOpens⟩, hComplete⟩ := hRewrites
  rw [sprdSignimg, h.loaded]
  simp only [h.window, ok_bind, hOpens, append_of_complete hComplete, Bool.true_eq_false, if_false,
    List.nil_append]
  rfl

/-- The image is whole where the write of the header has stopped. -/
theorem Prepared.headerCut (h : Prepared io slack img inputData payloadAddr payloadSize)
    (hRewrites : io.Rewrites inputData)
    (hCert : makeCert openssl nextpubk payloadAddr payloadSize (imageClass imgName) =
      .ok (certSize, cert))
    (hFails : ¬io.Complete 1 signedHeaderSize) :
    sprdSignimg openssl io slack nextpubk imgName img =
      .ok (0, io.unlink (some (inputData ++ (signHeader payloadSize certSize inputData).take
        (io.writes 1 signedHeaderSize).toNat))) := by
  have hLength : (signHeader payloadSize certSize inputData).length = signedHeaderSize :=
    length_signHeader
  rw [← hLength] at hFails ⊢
  rw [h.rewrites hRewrites, hCert, ok_bind]
  simp only [append_of_not_complete hFails, if_true, pure_eq_ok]

/-- The header stands behind it where the write of the certificate has
stopped. -/
theorem Prepared.certCut (h : Prepared io slack img inputData payloadAddr payloadSize)
    (hRewrites : io.Rewrites inputData)
    (hCert : makeCert openssl nextpubk payloadAddr payloadSize (imageClass imgName) =
      .ok (certSize, cert))
    (hHeader : io.Complete 1 signedHeaderSize) (hFails : ¬io.Complete 2 cert.length) :
    sprdSignimg openssl io slack nextpubk imgName img =
      .ok (0, io.unlink (some (inputData ++ signHeader payloadSize certSize inputData ++
        cert.take (io.writes 2 cert.length).toNat))) := by
  have hLength : (signHeader payloadSize certSize inputData).length = signedHeaderSize :=
    length_signHeader
  rw [← hLength] at hHeader
  rw [h.rewrites hRewrites, hCert, ok_bind]
  simp only [append_of_complete hHeader, Bool.true_eq_false, if_false,
    append_of_not_complete hFails, if_true, pure_eq_ok]

/-- When no write fails, the image is followed by the header and the
certificate. -/
theorem Prepared.signs (h : Prepared io slack img inputData payloadAddr payloadSize)
    (hRewrites : io.Rewrites inputData)
    (hCert : makeCert openssl nextpubk payloadAddr payloadSize (imageClass imgName) =
      .ok (certSize, cert))
    (hSigns : io.Signs cert) :
    sprdSignimg openssl io slack nextpubk imgName img =
      .ok (1, some (inputData ++ signHeader payloadSize certSize inputData ++ cert)) := by
  have hHeader := hSigns.1
  have hLength : (signHeader payloadSize certSize inputData).length = signedHeaderSize :=
    length_signHeader
  rw [← hLength] at hHeader
  rw [h.rewrites hRewrites, hCert, ok_bind]
  simp only [append_of_complete hHeader, Bool.true_eq_false, if_false,
    append_of_complete hSigns.2, pure_eq_ok]

/-- How a run of the tool ends. A fault ends it without a result. -/
inductive SigningRun (openssl : Openssl Key) (io : Io) (slack nextpubk : List UInt8)
    (imgName : List Char) (img : List UInt8) : Except Fault (Int × Option (List UInt8)) → Prop
  | unloaded : loadFile io img = none →
      SigningRun openssl io slack nextpubk imgName img (.ok (0, some img))
  | stopped (fault : Fault) : SigningRun openssl io slack nextpubk imgName img (.error fault)
  | unopened {inputData payloadAddr : List UInt8} {payloadSize : Nat} :
      Prepared io slack img inputData payloadAddr payloadSize → io.opens 0 = none →
      SigningRun openssl io slack nextpubk imgName img (.ok (0, io.unlink (some img)))
  | truncated {inputData payloadAddr : List UInt8} {payloadSize : Nat} :
      Prepared io slack img inputData payloadAddr payloadSize → io.opens 0 = some 0 →
      SigningRun openssl io slack nextpubk imgName img (.ok (0, some []))
  | cut {inputData payloadAddr : List UInt8} {payloadSize fd : Nat} :
      Prepared io slack img inputData payloadAddr payloadSize → io.opens 0 = some (fd + 1) →
      ¬io.Complete 0 inputData.length →
      SigningRun openssl io slack nextpubk imgName img
        (.ok (0, io.unlink (some (inputData.take (io.writes 0 inputData.length).toNat))))
  | headerCut {inputData payloadAddr cert : List UInt8} {payloadSize certSize : Nat} :
      Prepared io slack img inputData payloadAddr payloadSize → io.Rewrites inputData →
      makeCert openssl nextpubk payloadAddr payloadSize (imageClass imgName) =
        .ok (certSize, cert) → ¬io.Complete 1 signedHeaderSize →
      SigningRun openssl io slack nextpubk imgName img
        (.ok (0, io.unlink (some (inputData ++
          (signHeader payloadSize certSize inputData).take (io.writes 1 signedHeaderSize).toNat))))
  | certCut {inputData payloadAddr cert : List UInt8} {payloadSize certSize : Nat} :
      Prepared io slack img inputData payloadAddr payloadSize → io.Rewrites inputData →
      makeCert openssl nextpubk payloadAddr payloadSize (imageClass imgName) =
        .ok (certSize, cert) → io.Complete 1 signedHeaderSize → ¬io.Complete 2 cert.length →
      SigningRun openssl io slack nextpubk imgName img
        (.ok (0, io.unlink (some (inputData ++ signHeader payloadSize certSize inputData ++
          cert.take (io.writes 2 cert.length).toNat))))
  | signed {inputData payloadAddr cert : List UInt8} {payloadSize certSize : Nat} :
      Prepared io slack img inputData payloadAddr payloadSize → io.Rewrites inputData →
      makeCert openssl nextpubk payloadAddr payloadSize (imageClass imgName) =
        .ok (certSize, cert) → io.Signs cert →
      SigningRun openssl io slack nextpubk imgName img
        (.ok (1, some (inputData ++ signHeader payloadSize certSize inputData ++ cert)))

/-- A run over an image that has been loaded ends as what is opened and
written decides. -/
theorem Prepared.run (h : Prepared io slack img inputData payloadAddr payloadSize) :
    SigningRun openssl io slack nextpubk imgName img
      (sprdSignimg openssl io slack nextpubk imgName img) := by
  match hOpens : io.opens 0 with
  | none =>
      rw [h.unopened hOpens]
      exact .unopened h hOpens
  | some 0 =>
      rw [h.truncated hOpens]
      exact .truncated h hOpens
  | some (fd + 1) =>
      by_cases hComplete : io.Complete 0 inputData.length
      · have hRewrites : io.Rewrites inputData := ⟨⟨fd, hOpens⟩, hComplete⟩
        cases hCert : makeCert openssl nextpubk payloadAddr payloadSize (imageClass imgName) with
        | error fault =>
            rw [h.rewrites hRewrites, hCert, error_bind]
            exact .stopped fault
        | ok made =>
            obtain ⟨certSize, cert⟩ := made
            by_cases hHeader : io.Complete 1 signedHeaderSize
            · by_cases hWhole : io.Complete 2 cert.length
              · rw [h.signs hRewrites hCert ⟨hHeader, hWhole⟩]
                exact .signed h hRewrites hCert ⟨hHeader, hWhole⟩
              · rw [h.certCut hRewrites hCert hHeader hWhole]
                exact .certCut h hRewrites hCert hHeader hWhole
            · rw [h.headerCut hRewrites hCert hHeader]
              exact .headerCut h hRewrites hCert hHeader
      · rw [h.cut hOpens hComplete]
        exact .cut h hOpens hComplete

/-- Every run of the tool ends in one of these ways. -/
theorem sprdSignimg_run (openssl : Openssl Key) (io : Io) (slack nextpubk : List UInt8)
    (imgName : List Char) (img : List UInt8) :
    SigningRun openssl io slack nextpubk imgName img
      (sprdSignimg openssl io slack nextpubk imgName img) := by
  cases hLoad : loadFile io img with
  | none =>
      rw [sprdSignimg, hLoad]
      exact .unloaded hLoad
  | some inputData =>
      cases hWindow : payloadWindow (inputData ++ slack) inputData.length with
      | error fault =>
          rw [sprdSignimg, hLoad]
          simp only [hWindow, error_bind]
          exact .stopped fault
      | ok window =>
          obtain ⟨payloadAddr, payloadSize⟩ := window
          exact Prepared.run ⟨hLoad, hWindow⟩

/-- Once the payload has been found, nothing but the making of the
certificate overruns an array. -/
theorem Prepared.overruns (h : Prepared io slack img inputData payloadAddr payloadSize)
    (hRun : sprdSignimg openssl io slack nextpubk imgName img = .error .overrun) :
    io.Rewrites inputData ∧
      makeCert openssl nextpubk payloadAddr payloadSize (imageClass imgName) =
        .error .overrun := by
  match hOpens : io.opens 0 with
  | none => cases (h.unopened hOpens).symm.trans hRun
  | some 0 => cases (h.truncated hOpens).symm.trans hRun
  | some (fd + 1) =>
      by_cases hComplete : io.Complete 0 inputData.length
      · have hRewrites : io.Rewrites inputData := ⟨⟨fd, hOpens⟩, hComplete⟩
        refine ⟨hRewrites, ?_⟩
        rw [h.rewrites hRewrites] at hRun
        cases hCert : makeCert openssl nextpubk payloadAddr payloadSize (imageClass imgName) with
        | error fault =>
            rw [hCert, error_bind] at hRun
            exact congrArg Except.error (Except.error.inj hRun)
        | ok made =>
            rw [hCert, ok_bind] at hRun
            dsimp only at hRun
            split_ifs at hRun <;> cases hRun
      · cases (h.cut hOpens hComplete).symm.trans hRun

/-- Neither part of a computation overruns an array, so it does not. -/
theorem bind_ne_overrun {α β : Type} {x : Except Fault α} {f : α → Except Fault β}
    (hx : x ≠ .error .overrun) (hf : ∀ a, f a ≠ .error .overrun) : x >>= f ≠ .error .overrun := by
  cases x with
  | error fault =>
      rw [error_bind]
      exact fun h => hx (congrArg Except.error (Except.error.inj h))
  | ok a => exact hf a

theorem inBounds_ne_overrun {α : Type} (stored : Option α) :
    inBounds stored ≠ .error .overrun := by
  cases stored <;> rintro ⟨⟩

theorem secMemcmp_ne_overrun (cs st : List UInt8) (count : Nat) :
    secMemcmp cs st count ≠ .error .overrun := by
  fun_induction secMemcmp cs st count with
  | case1 => rintro ⟨⟩
  | case2 => rintro ⟨⟩
  | case3 _ _ _ _ _ _ ih => exact ih
  | case4 => rintro ⟨⟩

theorem scanLoop_ne_overrun (table : List DataBlockHeader) (passes : Nat)
    (start : List DataBlockHeader) (result : Nat) :
    scanLoop table passes start result ≠ .error .overrun := by
  fun_induction scanLoop table passes start result with
  | case1 => rintro ⟨⟩
  | case2 => rintro ⟨⟩
  | case3 => assumption
  | case4 => assumption
  | case5 => rintro ⟨⟩

/-- Finding the payload only reads. -/
theorem payloadWindow_ne_overrun (memory : List UInt8) (imgLen : Nat) :
    payloadWindow memory imgLen ≠ .error .overrun := by
  unfold payloadWindow
  refine bind_ne_overrun (bind_ne_overrun (secMemcmp_ne_overrun _ _ _) fun _ => ?_) fun packed => ?_
  · rintro ⟨⟩
  · split_ifs
    · refine bind_ne_overrun (bind_ne_overrun (inBounds_ne_overrun _) fun hdrBuf => ?_) ?_
      · refine bind_ne_overrun (scanLoop_ne_overrun _ _ _ _) fun found => ?_
        cases found <;> rintro ⟨⟩
      · rintro ⟨⟩ ⟨⟩
    · rintro ⟨⟩

/-- A run overruns an array exactly if it gets to the certificate, and a key
or the signature in that is written outside its object. -/
theorem sprdSignimg_overrun_iff (hNextpubk : nextpubk.length = sprdRsapubklen) :
    sprdSignimg openssl io slack nextpubk imgName img = .error .overrun ↔
      ∃ inputData payloadAddr payloadSize,
        Prepared io slack img inputData payloadAddr payloadSize ∧ io.Rewrites inputData ∧
          ¬WritesInside openssl (imageClass imgName) payloadAddr payloadSize := by
  constructor
  · intro hRun
    cases hLoad : loadFile io img with
    | none =>
        rw [sprdSignimg, hLoad] at hRun
        cases hRun
    | some inputData =>
        cases hWindow : payloadWindow (inputData ++ slack) inputData.length with
        | error fault =>
            rw [sprdSignimg, hLoad] at hRun
            simp only [hWindow, error_bind, Except.error.injEq] at hRun
            exact absurd (hRun ▸ hWindow) (payloadWindow_ne_overrun _ _)
        | ok window =>
            obtain ⟨payloadAddr, payloadSize⟩ := window
            have hPrepared : Prepared io slack img inputData payloadAddr payloadSize :=
              ⟨hLoad, hWindow⟩
            obtain ⟨hRewrites, hCert⟩ := hPrepared.overruns hRun
            exact ⟨_, _, _, hPrepared, hRewrites, (makeCert_eq_overrun hNextpubk).mp hCert⟩
  · rintro ⟨inputData, payloadAddr, payloadSize, hPrepared, hRewrites, hOutside⟩
    rw [hPrepared.rewrites hRewrites, (makeCert_eq_overrun hNextpubk).mpr hOutside, error_bind]

/-- The tool loads an image whole, unless its size is cut to an `int`, which
makes it shorter by gigabytes. -/
theorem loadFile_cases (h : loadFile io img = some inputData) :
    img.length < 2 ^ 31 ∧ inputData = img ∨ inputData.length + 2 ^ 31 ≤ img.length := by
  by_cases hSize : img.length < 2 ^ 31
  · rw [loadFile, fileSize_eq hSize] at h
    split_ifs at h with hNone
    refine Or.inl ⟨hSize, ?_⟩
    rw [← Option.some.inj h, Int.toNat_natCast, List.take_length]
  · have hCut : fileSize img < 0 ∨ (fileSize img).toNat + 2 ^ 31 ≤ img.length := by
      unfold fileSize toInt32
      split_ifs <;> omega
    rw [loadFile] at h
    split_ifs at h with hNone
    rw [← Option.some.inj h, List.length_take]
    exact Or.inr (by omega)

/-- What the first write has left is not the image, unless that is empty. -/
theorem take_writes_eq (hLoad : loadFile io img = some inputData)
    (hFails : ¬io.Complete 0 inputData.length) :
    inputData.take (io.writes 0 inputData.length).toNat = img ↔ img = [] := by
  constructor
  · intro hSame
    have hLength := congrArg List.length hSame
    rw [List.length_take] at hLength
    rw [← List.length_eq_zero_iff]
    by_contra hImg
    have hCut := toNat_writes_lt hFails
    rcases loadFile_cases hLoad with ⟨-, rfl⟩ | hShort <;> omega
  · rintro rfl
    rcases loadFile_cases hLoad with ⟨-, rfl⟩ | hShort
    · exact List.take_nil
    · rw [List.length_nil] at hShort
      omega

/-- What the write of the header has left is the image where the image has
been written whole and nothing behind it. -/
theorem append_header_eq (hLoad : loadFile io img = some inputData) {header : List UInt8}
    (hHeader : header.length = signedHeaderSize) {written : Int} :
    inputData ++ header.take written.toNat = img ↔ img.length < 2 ^ 31 ∧ written ≤ 0 := by
  have hSize : signedHeaderSize = 96 := rfl
  rcases loadFile_cases hLoad with ⟨hFits, rfl⟩ | hShort
  · rw [List.append_right_eq_self, List.take_eq_nil_iff, ← List.length_eq_zero_iff, hHeader]
    omega
  · constructor
    · intro hSame
      have hLength := congrArg List.length hSame
      rw [List.length_append, List.length_take, hHeader] at hLength
      omega
    · omega

/-- A complete header makes the file another one. -/
theorem append_cert_ne (hLoad : loadFile io img = some inputData) {header rest : List UInt8}
    (hHeader : header.length = signedHeaderSize) (hRest : rest.length < 1024) :
    inputData ++ header ++ rest ≠ img := by
  have hSize : signedHeaderSize = 96 := rfl
  intro hSame
  have hLength := congrArg List.length hSame
  rw [List.length_append, List.length_append, hHeader] at hLength
  rcases loadFile_cases hLoad with ⟨-, rfl⟩ | hShort <;> omega

/-- The faults, met once the image has been loaded, after which the image is
not what it was. An image that could not be opened is lost only if it can be
unlinked, and an image that cannot be unlinked has not been lost as long as
it has been written whole and nothing behind it. Where a key or the
signature is written outside its object, nothing is promised of the image. -/
inductive SigningLoss (openssl : Openssl Key) (io : Io) (slack : List UInt8)
    (imgName : List Char) (img : List UInt8) : Prop
  | unopened {inputData payloadAddr : List UInt8} {payloadSize : Nat} :
      Prepared io slack img inputData payloadAddr payloadSize → io.opens 0 = none →
      io.unlinks = true → SigningLoss openssl io slack imgName img
  | truncated {inputData payloadAddr : List UInt8} {payloadSize : Nat} :
      Prepared io slack img inputData payloadAddr payloadSize → io.opens 0 = some 0 →
      img ≠ [] → SigningLoss openssl io slack imgName img
  | cut {inputData payloadAddr : List UInt8} {payloadSize fd : Nat} :
      Prepared io slack img inputData payloadAddr payloadSize → io.opens 0 = some (fd + 1) →
      ¬io.Complete 0 inputData.length → io.unlinks = true ∨ img ≠ [] →
      SigningLoss openssl io slack imgName img
  | overrun {inputData payloadAddr : List UInt8} {payloadSize : Nat} :
      Prepared io slack img inputData payloadAddr payloadSize → io.Rewrites inputData →
      ¬WritesInside openssl (imageClass imgName) payloadAddr payloadSize →
      SigningLoss openssl io slack imgName img
  | headerCut {inputData payloadAddr : List UInt8} {payloadSize : Nat} :
      Prepared io slack img inputData payloadAddr payloadSize → io.Rewrites inputData →
      Hashable payloadAddr payloadSize → ¬io.Complete 1 signedHeaderSize →
      io.unlinks = true ∨ 2 ^ 31 ≤ img.length ∨ 0 < io.writes 1 signedHeaderSize →
      SigningLoss openssl io slack imgName img
  | certCut {inputData payloadAddr : List UInt8} {payloadSize : Nat} :
      Prepared io slack img inputData payloadAddr payloadSize → io.Rewrites inputData →
      Hashable payloadAddr payloadSize → io.Complete 1 signedHeaderSize →
      ¬io.Complete 2 (imageClass imgName).certSize → SigningLoss openssl io slack imgName img

/-- When the tool returns 0, the image is what it was. A run that overruns an
array may return anything. -/
def KeepsImage (openssl : Openssl Key) (io : Io) (slack nextpubk : List UInt8)
    (imgName : List Char) (img : List UInt8) : Prop :=
  sprdSignimg openssl io slack nextpubk imgName img ≠ .error .overrun ∧
    ∀ image, sprdSignimg openssl io slack nextpubk imgName img = .ok (0, image) → image = some img

/-- A run that leaves another file, or may unlink it, does not keep the
image. -/
theorem not_keepsImage {left : List UInt8} (hLoses : io.unlinks = true ∨ left ≠ img)
    (hRun : sprdSignimg openssl io slack nextpubk imgName img = .ok (0, io.unlink (some left))) :
    ¬KeepsImage openssl io slack nextpubk imgName img := by
  intro hKeeps
  obtain ⟨hStays, hSame⟩ := unlink_eq_some.mp (hKeeps.2 _ hRun)
  rcases hLoses with hUnlinks | hOther
  · cases hStays.symm.trans hUnlinks
  · exact hOther (Option.some.inj hSame)

/-- A write of header or certificate that fails has a certificate behind it,
unless making one has overrun an array. -/
theorem Prepared.certified (h : Prepared io slack img inputData payloadAddr payloadSize)
    (hNextpubk : nextpubk.length = sprdRsapubklen) (hRewrites : io.Rewrites inputData)
    (hHash : Hashable payloadAddr payloadSize)
    (hKeeps : KeepsImage openssl io slack nextpubk imgName img) :
    ∃ cert, makeCert openssl nextpubk payloadAddr payloadSize (imageClass imgName) =
      .ok ((imageClass imgName).certSize, cert) ∧ cert.length = (imageClass imgName).certSize := by
  refine makeCert_eq_ok hNextpubk (not_not.mp fun hOutside => ?_) hHash
  exact hKeeps.1 ((sprdSignimg_overrun_iff hNextpubk).mpr ⟨_, _, _, h, hRewrites, hOutside⟩)

/-- These faults, and no others, lose the image. -/
theorem keepsImage_iff (hNextpubk : nextpubk.length = sprdRsapubklen) :
    KeepsImage openssl io slack nextpubk imgName img ↔
      ¬SigningLoss openssl io slack imgName img := by
  constructor
  · intro hKeeps hLoss
    cases hLoss with
    | unopened hPrepared hOpens hUnlinks =>
        exact not_keepsImage (Or.inl hUnlinks) (hPrepared.unopened hOpens) hKeeps
    | truncated hPrepared hOpens hImg =>
        exact hImg (Option.some.inj (hKeeps.2 _ (hPrepared.truncated hOpens))).symm
    | cut hPrepared hOpens hFails hLoses =>
        have hOther := hLoses.imp_right (mt (take_writes_eq hPrepared.loaded hFails).mp)
        exact not_keepsImage hOther (hPrepared.cut hOpens hFails) hKeeps
    | overrun hPrepared hRewrites hOutside =>
        exact hKeeps.1 ((sprdSignimg_overrun_iff hNextpubk).mpr
          ⟨_, _, _, hPrepared, hRewrites, hOutside⟩)
    | headerCut hPrepared hRewrites hHash hFails hLoses =>
        obtain ⟨cert, hCert, -⟩ := hPrepared.certified hNextpubk hRewrites hHash hKeeps
        have hRun := hPrepared.headerCut hRewrites hCert hFails
        refine not_keepsImage (hLoses.imp_right fun hLonger hSame => ?_) hRun hKeeps
        have hWhole := (append_header_eq hPrepared.loaded length_signHeader).mp hSame
        omega
    | certCut hPrepared hRewrites hHash hHeader hFails =>
        obtain ⟨cert, hCert, hLength⟩ := hPrepared.certified hNextpubk hRewrites hHash hKeeps
        have hShort := (imageClass imgName).certSize_lt
        rw [← hLength] at hFails hShort
        exact not_keepsImage (Or.inr (append_cert_ne hPrepared.loaded length_signHeader
          (by rw [List.length_take]; omega))) (hPrepared.certCut hRewrites hCert hHeader hFails)
          hKeeps
  · intro hNone
    refine ⟨fun hRun => ?_, fun image hRun => ?_⟩
    · obtain ⟨_, _, _, hPrepared, hRewrites, hOutside⟩ :=
        (sprdSignimg_overrun_iff hNextpubk).mp hRun
      exact hNone (.overrun hPrepared hRewrites hOutside)
    · have hEnd := sprdSignimg_run openssl io slack nextpubk imgName img
      rw [hRun] at hEnd
      cases hEnd with
      | unloaded hLoad => rfl
      | unopened hPrepared hOpens =>
          refine unlink_eq_some.mpr ⟨?_, rfl⟩
          exact Bool.eq_false_iff.mpr fun hUnlinks => hNone (.unopened hPrepared hOpens hUnlinks)
      | truncated hPrepared hOpens =>
          exact congrArg some (not_not.mp fun hImg =>
            hNone (.truncated hPrepared hOpens (Ne.symm hImg)))
      | cut hPrepared hOpens hFails =>
          have hSafe : ¬(io.unlinks = true ∨ img ≠ []) := fun hLoses =>
            hNone (.cut hPrepared hOpens hFails hLoses)
          rw [not_or, Bool.not_eq_true, not_not, ← take_writes_eq hPrepared.loaded hFails] at hSafe
          exact unlink_eq_some.mpr ⟨hSafe.1, congrArg some hSafe.2⟩
      | headerCut hPrepared hRewrites hCert hFails =>
          have hHash := (of_makeCert_eq_ok hNextpubk hCert).2.1
          have hSafe : ¬(io.unlinks = true ∨ 2 ^ 31 ≤ img.length ∨
              0 < io.writes 1 signedHeaderSize) := fun hLoses =>
            hNone (.headerCut hPrepared hRewrites hHash hFails hLoses)
          rw [not_or, Bool.not_eq_true, not_or, not_le, not_lt] at hSafe
          refine unlink_eq_some.mpr ⟨hSafe.1, congrArg some ?_⟩
          exact (append_header_eq hPrepared.loaded length_signHeader).mpr hSafe.2
      | certCut hPrepared hRewrites hCert hHeader hFails =>
          obtain ⟨-, hHash, -, hLength⟩ := of_makeCert_eq_ok hNextpubk hCert
          rw [hLength] at hFails
          exact absurd (.certCut hPrepared hRewrites hHash hHeader hFails) hNone

end Signing

section Inserting

variable {io : Io} {doSha256 : List UInt8 → Digest} {addPayloadHash : Int} {filename : List Char}
  {name : List Char} {file payload : List UInt8} {earlier : Option (List UInt8)}

/-- The header in front of a payload. -/
def insertHeader (doSha256 : List UInt8 → Digest) (addPayloadHash : Int) (payload : List UInt8) :
    List UInt8 :=
  sysImgHeader (if addPayloadHash = 1 then (doSha256 payload).val else List.replicate 32 0)
    payload.length

/-- The file has a name for its image and has been loaded. -/
structure Loaded (io : Io) (filename name : List Char) (file payload : List UInt8) : Prop where
  named : imageName filename = .ok (some name)
  loaded : loadPadded io file = some payload

/-- A name that does not fit is copied behind the end of its array. -/
theorem imageName_eq_error {fault : Fault} (h : imageName filename = .error fault) :
    fault = .overrun := by
  unfold imageName at h
  dsimp only at h
  split_ifs at h
  · exact (Except.error.inj h).symm
  · exact (Except.error.inj h).symm
  · exact (Except.error.inj h).symm

/-- The run does not get as far as the output. -/
theorem imgheaderinsert_unloaded {found : Option (List Char)}
    (hName : imageName filename = .ok found) (hEnd : found = none ∨ loadPadded io file = none) :
    imgheaderinsert io doSha256 addPayloadHash filename file earlier = .ok ⟨1, file, earlier⟩ := by
  rw [imgheaderinsert, hName, ok_bind]
  rcases hEnd with rfl | hLoad
  · rfl
  · rw [hLoad]
    cases found <;> rfl

/-- The faults that a run over a payload meets, each with what the two files
hold there. The image is then unlinked. -/
inductive InsertFault (io : Io) (header file payload : List UInt8) (earlier : Option (List UInt8)) :
    List UInt8 → Option (List UInt8) → Prop
  | closed : io.opens 0 = none → InsertFault io header file payload earlier file earlier
  | unopened : io.opens 0 ≠ none → io.opens 1 = none →
      InsertFault io header file payload earlier file (some [])
  | cut : io.opens 0 ≠ none → io.opens 1 ≠ none → ¬io.Complete 0 payload.length →
      InsertFault io header file payload earlier
        (payload.take (io.writes 0 payload.length).toNat) (some [])
  | headerCut : io.opens 0 ≠ none → io.opens 1 ≠ none → io.Complete 0 payload.length →
      ¬io.Complete 1 header.length →
      InsertFault io header file payload earlier payload
        (some (header.take (io.writes 1 header.length).toNat))
  | payloadCut : io.opens 0 ≠ none → io.opens 1 ≠ none → io.Complete 0 payload.length →
      io.Complete 1 header.length → ¬io.Complete 2 payload.length →
      InsertFault io header file payload earlier payload
        (some (header ++ payload.take (io.writes 2 payload.length).toNat))

/-- A run that meets a fault ends with a status of 1, and unlinks the image. -/
theorem Loaded.fault (h : Loaded io filename name file payload) {original : List UInt8}
    {image : Option (List UInt8)}
    (hFault : InsertFault io (insertHeader doSha256 addPayloadHash payload) file payload earlier
      original image) :
    imgheaderinsert io doSha256 addPayloadHash filename file earlier =
      .ok ⟨1, original, io.unlink image⟩ := by
  rw [insertHeader] at hFault
  rw [imgheaderinsert, h.named, ok_bind, h.loaded]
  cases hFault with
  | closed hImage => simp only [if_pos hImage, pure_eq_ok]
  | unopened hImage hOriginal => simp only [if_neg hImage, if_pos hOriginal, pure_eq_ok]
  | cut hImage hOriginal hFails =>
      simp only [if_neg hImage, if_neg hOriginal, append_of_not_complete hFails, if_true,
        List.nil_append, pure_eq_ok]
  | headerCut hImage hOriginal hWhole hFails =>
      simp only [if_neg hImage, if_neg hOriginal, append_of_complete hWhole, Bool.true_eq_false,
        if_false, append_of_not_complete hFails, if_true, List.nil_append, pure_eq_ok]
  | payloadCut hImage hOriginal hWhole hHeader hFails =>
      simp only [if_neg hImage, if_neg hOriginal, append_of_complete hWhole, Bool.true_eq_false,
        if_false, append_of_complete hHeader, append_of_not_complete hFails, if_true,
        List.nil_append, pure_eq_ok]

/-- A run that meets none of them writes the image, and the padded payload
over the original. -/
theorem Loaded.inserts (h : Loaded io filename name file payload)
    (hNone : ∀ original image, ¬InsertFault io (insertHeader doSha256 addPayloadHash payload) file
      payload earlier original image) :
    imgheaderinsert io doSha256 addPayloadHash filename file earlier =
      .ok ⟨0, payload, some (insertHeader doSha256 addPayloadHash payload ++ payload)⟩ := by
  have hImage : io.opens 0 ≠ none := fun hImage => hNone _ _ (.closed hImage)
  have hOriginal : io.opens 1 ≠ none := fun hOriginal => hNone _ _ (.unopened hImage hOriginal)
  have hWhole : io.Complete 0 payload.length :=
    not_not.mp fun hFails => hNone _ _ (.cut hImage hOriginal hFails)
  have hHeader : io.Complete 1 (insertHeader doSha256 addPayloadHash payload).length :=
    not_not.mp fun hFails => hNone _ _ (.headerCut hImage hOriginal hWhole hFails)
  have hPayload : io.Complete 2 payload.length :=
    not_not.mp fun hFails => hNone _ _ (.payloadCut hImage hOriginal hWhole hHeader hFails)
  rw [insertHeader] at hHeader ⊢
  rw [imgheaderinsert, h.named, ok_bind, h.loaded]
  simp only [if_neg hImage, if_neg hOriginal, append_of_complete hWhole, Bool.true_eq_false,
    if_false, append_of_complete hHeader, append_of_complete hPayload, List.nil_append, pure_eq_ok]

/-- When the tool fails, the files that existed are what they were. A run
that overruns an array may do anything. -/
def KeepsFiles (io : Io) (doSha256 : List UInt8 → Digest) (addPayloadHash : Int)
    (filename : List Char) (file : List UInt8) (earlier : Option (List UInt8)) : Prop :=
  imgheaderinsert io doSha256 addPayloadHash filename file earlier ≠ .error .overrun ∧
    ∀ result, imgheaderinsert io doSha256 addPayloadHash filename file earlier = .ok result →
      result.status ≠ 0 →
      result.original = file ∧ ∀ image, earlier = some image → result.image = some image

/-- The names of file and image and the suffix between them fit the arrays
of the tool. A name without a point has no image. -/
def NamesFit (filename : List Char) : Prop := ∃ name, imageName filename = .ok name

/-- What has been written does not harm the image of an earlier run: there
is none, or it is the same, and cannot be unlinked. -/
def Io.Keeps (io : Io) (earlier written : Option (List UInt8)) : Prop :=
  earlier = none ∨ io.unlinks = false ∧ earlier = written

/-- What unlinking leaves is the earlier file exactly if the output was not
touched, or there was none. -/
theorem keeps_iff {written : Option (List UInt8)} :
    (∀ image, earlier = some image → io.unlink written = some image) ↔
      io.Keeps earlier written := by
  cases earlier with
  | none => simp [Io.Keeps]
  | some image =>
      simp only [Option.some.injEq, forall_eq', unlink_eq_some, Io.Keeps, reduceCtorEq, false_or]
      rw [eq_comm (a := written)]

/-- How a run ends whose names fit: before the output, with a fault, or with
the image. -/
theorem imgheaderinsert_run (doSha256 : List UInt8 → Digest) (addPayloadHash : Int)
    (earlier : Option (List UInt8)) {found : Option (List Char)}
    (hName : imageName filename = .ok found) :
    imgheaderinsert io doSha256 addPayloadHash filename file earlier = .ok ⟨1, file, earlier⟩ ∨
    ∃ name payload, Loaded io filename name file payload ∧
      ((∃ original image, InsertFault io (insertHeader doSha256 addPayloadHash payload) file payload
        earlier original image ∧
          imgheaderinsert io doSha256 addPayloadHash filename file earlier =
            .ok ⟨1, original, io.unlink image⟩) ∨
      ∃ image, imgheaderinsert io doSha256 addPayloadHash filename file earlier =
        .ok ⟨0, payload, image⟩) := by
  by_cases hEnd : found = none ∨ loadPadded io file = none
  · exact Or.inl (imgheaderinsert_unloaded hName hEnd)
  · obtain ⟨name, rfl⟩ := Option.ne_none_iff_exists'.mp (not_or.mp hEnd).1
    obtain ⟨payload, hLoad⟩ := Option.ne_none_iff_exists'.mp (not_or.mp hEnd).2
    have hLoaded : Loaded io filename name file payload := ⟨hName, hLoad⟩
    refine Or.inr ⟨name, payload, hLoaded, ?_⟩
    by_cases hFault : ∃ original image, InsertFault io
        (insertHeader doSha256 addPayloadHash payload) file payload earlier original image
    · obtain ⟨original, image, hFault⟩ := hFault
      exact Or.inl ⟨original, image, hFault, hLoaded.fault hFault⟩
    · exact Or.inr ⟨_, hLoaded.inserts fun original image hMeets =>
        hFault ⟨original, image, hMeets⟩⟩

/-- A run overruns an array only in making the name of the image. -/
theorem imgheaderinsert_overrun_iff :
    imgheaderinsert io doSha256 addPayloadHash filename file earlier = .error .overrun ↔
      ¬NamesFit filename := by
  cases hName : imageName filename with
  | error fault =>
      obtain rfl := imageName_eq_error hName
      rw [imgheaderinsert, hName, error_bind, NamesFit, hName]
      simp
  | ok found =>
      have hFits : NamesFit filename := ⟨found, hName⟩
      refine iff_of_false ?_ (not_not.mpr hFits)
      rcases imgheaderinsert_run doSha256 addPayloadHash earlier hName with
        hRun | ⟨_, _, -, ⟨_, _, -, hRun⟩ | ⟨_, hRun⟩⟩ <;> rw [hRun] <;> rintro ⟨⟩

/-- The files are kept unless a fault is met at which the original or the
earlier image is not what it was. -/
theorem keepsFiles_iff_faults : KeepsFiles io doSha256 addPayloadHash filename file earlier ↔
    NamesFit filename ∧ ∀ name payload, Loaded io filename name file payload → ∀ original image,
      InsertFault io (insertHeader doSha256 addPayloadHash payload) file payload earlier original
        image → original = file ∧ io.Keeps earlier image := by
  rw [KeepsFiles, Ne, imgheaderinsert_overrun_iff, not_not]
  refine and_congr_right fun ⟨found, hName⟩ => ?_
  constructor
  · intro hKeeps name payload hLoaded original image hFault
    have hKept := hKeeps _ (hLoaded.fault hFault) Int.one_ne_zero
    exact ⟨hKept.1, keeps_iff.mp hKept.2⟩
  · intro hSafe result hRun hStatus
    rcases imgheaderinsert_run doSha256 addPayloadHash earlier hName with
      hEnd | ⟨name, payload, hLoaded, ⟨original, image, hFault, hEnd⟩ | ⟨_, hEnd⟩⟩
    · rw [← Except.ok.inj (hEnd.symm.trans hRun)]
      exact ⟨rfl, fun _ => id⟩
    · obtain ⟨hOriginal, hImage⟩ := hSafe name payload hLoaded original image hFault
      rw [← Except.ok.inj (hEnd.symm.trans hRun)]
      exact ⟨hOriginal, keeps_iff.mpr hImage⟩
    · rw [← Except.ok.inj (hEnd.symm.trans hRun)] at hStatus
      exact absurd rfl hStatus

/-- A file is loaded whole and padded, unless its size is cut to an `int`. -/
theorem loadPadded_cases (h : loadPadded io file = some payload) :
    (∃ padding, payload = file ++ List.replicate padding 0) ∨ payload.length < file.length := by
  by_cases hSize : file.length < 2 ^ 31
  · rw [loadPadded, fileSize_eq hSize] at h
    split_ifs at h with hNone
    refine Or.inl ⟨(((file.length : Int) + 15) / 16 * 16 - file.length).toNat, ?_⟩
    rw [← Option.some.inj h, Int.toNat_natCast, List.take_length]
  · rw [loadPadded] at h
    split_ifs at h with hNone
    rw [← Option.some.inj h, List.length_append, List.length_take, List.length_replicate]
    exact Or.inr (by omega)

/-- The first bytes of the padded file are the file where there are as many
of them. -/
theorem take_payload_eq (h : loadPadded io file = some payload) {count : Nat}
    (hCount : count ≤ payload.length) : payload.take count = file ↔ count = file.length := by
  constructor
  · intro hSame
    rw [← hSame, List.length_take, Nat.min_eq_left hCount]
  · rintro rfl
    rcases loadPadded_cases h with ⟨padding, rfl⟩ | hShort
    · exact List.take_left
    · omega

/-- The padded payload is the file exactly if nothing had to be padded. -/
theorem payload_eq (h : loadPadded io file = some payload) :
    payload = file ↔ payload.length = file.length := by
  rw [← take_payload_eq h (Nat.le_refl _), List.take_length]

/-- What a fault must find for it to do no harm. Where the image could not
be opened, it is that of the earlier run, which is lost only if it can be
unlinked. Where it was opened it has been truncated. The original stays what
it was where it could not be opened, where its write stopped at its size,
and where it needed no padding. -/
structure InsertingSafe (io : Io) (header file payload : List UInt8)
    (earlier : Option (List UInt8)) : Prop where
  closed : io.opens 0 = none → earlier = none ∨ io.unlinks = false
  unopened : io.opens 0 ≠ none → io.opens 1 = none → io.Keeps earlier (some [])
  cut : io.opens 0 ≠ none → io.opens 1 ≠ none → ¬io.Complete 0 payload.length →
    (io.writes 0 payload.length).toNat = file.length ∧ io.Keeps earlier (some [])
  headerCut : io.opens 0 ≠ none → io.opens 1 ≠ none → io.Complete 0 payload.length →
    ¬io.Complete 1 header.length → payload.length = file.length ∧
      io.Keeps earlier (some (header.take (io.writes 1 header.length).toNat))
  payloadCut : io.opens 0 ≠ none → io.opens 1 ≠ none → io.Complete 0 payload.length →
    io.Complete 1 header.length → ¬io.Complete 2 payload.length →
    payload.length = file.length ∧
      io.Keeps earlier (some (header ++ payload.take (io.writes 2 payload.length).toNat))

/-- The condition asks of each fault that it leaves the files as they were. -/
theorem insertingSafe_iff {header : List UInt8} (h : loadPadded io file = some payload) :
    InsertingSafe io header file payload earlier ↔ ∀ original image,
      InsertFault io header file payload earlier original image →
        original = file ∧ io.Keeps earlier image := by
  have hWrites : (io.writes 0 payload.length).toNat ≤ payload.length := by
    have hLe := io.writes_le 0 payload.length
    omega
  constructor
  · intro hSafe original image hFault
    cases hFault with
    | closed hImage => exact ⟨rfl, (hSafe.closed hImage).imp_right fun hStays => ⟨hStays, rfl⟩⟩
    | unopened hImage hOriginal => exact ⟨rfl, hSafe.unopened hImage hOriginal⟩
    | cut hImage hOriginal hFails =>
        exact (hSafe.cut hImage hOriginal hFails).imp_left (take_payload_eq h hWrites).mpr
    | headerCut hImage hOriginal hWhole hFails =>
        exact (hSafe.headerCut hImage hOriginal hWhole hFails).imp_left (payload_eq h).mpr
    | payloadCut hImage hOriginal hWhole hHeader hFails =>
        exact (hSafe.payloadCut hImage hOriginal hWhole hHeader hFails).imp_left (payload_eq h).mpr
  · intro hFaults
    refine ⟨fun hImage => ?_, fun hImage hOriginal => ?_, fun hImage hOriginal hFails => ?_,
      fun hImage hOriginal hWhole hFails => ?_, fun hImage hOriginal hWhole hHeader hFails => ?_⟩
    · exact (hFaults _ _ (.closed hImage)).2.imp_right And.left
    · exact (hFaults _ _ (.unopened hImage hOriginal)).2
    · exact (hFaults _ _ (.cut hImage hOriginal hFails)).imp_left (take_payload_eq h hWrites).mp
    · exact (hFaults _ _ (.headerCut hImage hOriginal hWhole hFails)).imp_left (payload_eq h).mp
    · exact (hFaults _ _ (.payloadCut hImage hOriginal hWhole hHeader hFails)).imp_left
        (payload_eq h).mp

/-- The tool keeps the files exactly if the names fit and inserting is safe
for each image that it loads. -/
theorem keepsFiles_iff : KeepsFiles io doSha256 addPayloadHash filename file earlier ↔
    NamesFit filename ∧ ∀ name payload, Loaded io filename name file payload →
      InsertingSafe io (insertHeader doSha256 addPayloadHash payload) file payload earlier := by
  rw [keepsFiles_iff_faults]
  refine and_congr_right fun _ => forall₃_congr fun name payload hLoaded => ?_
  exact (insertingSafe_iff hLoaded.loaded).symm

end Inserting

/-- After which failed runs of both tools every file is what it was. -/
theorem failed_runs_iff {Key : Type} (openssl : Openssl Key) (doSha256 : List UInt8 → Digest) :
    (∀ io slack (nextpubk : SprdRsapubkey) imgName img,
      KeepsImage openssl io slack nextpubk.val imgName img ↔
        ¬SigningLoss openssl io slack imgName img) ∧
    (∀ io addPayloadHash filename file earlier,
      KeepsFiles io doSha256 addPayloadHash filename file earlier ↔
        NamesFit filename ∧ ∀ name payload, Loaded io filename name file payload →
          InsertingSafe io (insertHeader doSha256 addPayloadHash payload) file payload earlier) :=
  ⟨fun _ _ nextpubk _ _ => keepsImage_iff nextpubk.property, fun _ _ _ _ _ => keepsFiles_iff⟩

/-- The disk is full: every write stops after ten bytes. -/
def Io.full : Io where
  loads := true
  opens i := some (i + 3)
  writes _ count := min count 10
  writes_le _ _ := min_le_left _ _
  unlinks := true

/-- A directory without keys. -/
def noKeys : Openssl Empty where
  readPubkey _ := none
  readPrivateKey _ := none
  rsaSize := Empty.elim
  hasRoom := Empty.elim
  rsaPrivateEncrypt := Empty.elim
  isSome_rsaPrivateEncrypt := Empty.rec _
  length_rsaPrivateEncrypt := Empty.rec _

/-- Both tools over a full disk: the signed image is gone, and so are the
original, but for its first ten bytes, and the image of an earlier run. -/
theorem full_disk :
    sprdSignimg noKeys .full (List.replicate 5 0) (List.replicate sprdRsapubklen 0)
        "boot.img".toList (List.replicate 512 7) = .ok (0, none) ∧
    ¬KeepsImage noKeys .full (List.replicate 5 0) (List.replicate sprdRsapubklen 0)
      "boot.img".toList (List.replicate 512 7) ∧
    imgheaderinsert .full (fun _ => ⟨List.replicate 32 0, rfl⟩) 0 "boot.img".toList
        (List.replicate 16 7) (some [1]) = .ok ⟨1, List.replicate 10 7, none⟩ ∧
    ¬KeepsFiles .full (fun _ => ⟨List.replicate 32 0, rfl⟩) 0 "boot.img".toList
      (List.replicate 16 7) (some [1]) := by
  have hSign : sprdSignimg noKeys .full (List.replicate 5 0) (List.replicate sprdRsapubklen 0)
      "boot.img".toList (List.replicate 512 7) = .ok (0, none) := by
    decide +kernel
  have hInsert : imgheaderinsert .full (fun _ => ⟨List.replicate 32 0, rfl⟩) 0
      "boot.img".toList (List.replicate 16 7) (some [1]) =
        .ok ⟨1, List.replicate 10 7, none⟩ := by
    decide +kernel
  refine ⟨hSign, fun hKeeps => ?_, hInsert, fun hKeeps => ?_⟩
  · cases hKeeps.2 none hSign
  · cases (hKeeps.2 _ hInsert Int.one_ne_zero).2 [1] rfl

end SignImage
