import Mathlib.Algebra.Ring.Nat
import Mathlib.Data.List.Dedup
import Mathlib.Data.List.Sort
import Gtexswifi.Library.FileTree

/-! The system optimizer: its tables, its eleven passes over the file tree,
and the run that measures the system before and after them. -/
namespace SystemOptimizer

open FileTree

def systemPath : Text := "/system".toList
def appPath : Text := systemPath ++ "/app".toList
def privAppPath : Text := systemPath ++ "/priv-app".toList
def libPath : Text := systemPath ++ "/lib".toList
def frameworkPath : Text := systemPath ++ "/framework".toList
def fontPath : Text := systemPath ++ "/fonts".toList
def mediaPath : Text := systemPath ++ "/media".toList
def etcPath : Text := systemPath ++ "/etc".toList
def binPath : Text := systemPath ++ "/bin".toList
def xbinPath : Text := systemPath ++ "/xbin".toList

def targetSize : Nat := 500 * 1024 * 1024

/-- The position of the first occurrence, as `std::string::find` gives it. -/
def find (needle : Text) : Text → Option Nat
  | [] => if needle = [] then some 0 else none
  | c :: rest =>
      if needle.isPrefixOf (c :: rest) then some 0 else (find needle rest).map (· + 1)

def contains (needle : String) (text : Text) : Bool := (find needle.toList text).isSome

/-- The order of strings, by their first difference. -/
def notAfter : Text → Text → Bool
  | [], _ => true
  | _ :: _, [] => false
  | a :: rest, b :: rest' =>
      if a = b then notAfter rest rest' else decide (a.toNat < b.toNat)

/-- The order in which a `std::set` of strings is gone through. -/
def inSetOrder (names : List String) : List Text :=
  ((names.map String.toList).insertionSort fun a b => notAfter a b).dedup

def criticalPaths : List String :=
  ["/system/bin/sh", "/system/bin/init", "/system/bin/linker", "/system/bin/app_process",
    "/system/bin/surfaceflinger", "/system/bin/netd", "/system/bin/vold",
    "/system/bin/mediaserver", "/system/bin/installd", "/system/bin/dalvikvm",
    "/system/lib/libc.so", "/system/lib/libm.so", "/system/lib/libdl.so",
    "/system/lib/liblog.so", "/system/lib/libcutils.so", "/system/lib/libutils.so",
    "/system/lib/libbinder.so", "/system/lib/libsurfaceflinger.so",
    "/system/lib/libandroid_runtime.so", "/system/lib/libnativehelper.so",
    "/system/lib/libicuuc.so", "/system/lib/libicui18n.so",
    "/system/framework/framework.jar", "/system/framework/core.jar",
    "/system/framework/ext.jar", "/system/framework/services.jar",
    "/system/framework/telephony-common.jar", "/system/framework/voip-common.jar",
    "/system/framework/ims-common.jar", "/system/framework/mms-common.jar",
    "/system/framework/android.policy.jar"]

def removableApps : List String :=
  ["Email", "Exchange2", "Galaxy4", "HoloSpiralWallpaper", "LiveWallpapers",
    "MagicSmokeWallpapers", "NoiseField", "PhaseBeam", "PhotoTable", "PicoTts",
    "QuickSearchBox", "SoundRecorder", "Stk", "VisualizationWallpapers", "BasicDreams",
    "PrintSpooler", "WAPPushManager", "CloudPrint", "DeskClock", "EasterEgg", "HTMLViewer",
    "InputDevices", "KeyChain", "LiveWallpapersPicker", "MusicFX", "NfcNci", "PacProcessor",
    "PhaseBeam", "SamsungDoze", "SamsungTTS", "SoundRecorder", "Spherical", "Calendar",
    "Calculator", "Browser", "Camera", "Gallery2", "Music", "VideoPlayer",
    "DownloadProviderUi", "DrmProvider", "SharedStorageBackup", "CertInstaller",
    "DefaultContainerService", "BackupRestoreConfirmation", "BluetoothMidiService",
    "CaptivePortalLogin", "CarrierConfig", "CellBroadcastReceiver", "CtsShim", "CtsShimPriv",
    "Development", "DeviceHandler", "DmService", "DocumentsUI", "ExternalStorageProvider",
    "FusedLocation", "InputDevices", "KeyChain", "ManagedProvisioning", "MmsService",
    "NetworkStack", "OpenWnn", "PacProcessor", "ProxyHandler", "Shell", "Stk", "Tag",
    "TelephonyProvider", "Traceur", "UserDictionaryProvider", "VpnDialogs",
    "WallpaperBackup", "WifiDisplay"]

def essentialFonts : List String :=
  ["Roboto-Regular.ttf", "Roboto-Bold.ttf", "Roboto-Italic.ttf", "Roboto-BoldItalic.ttf",
    "Roboto-Medium.ttf", "Roboto-MediumItalic.ttf", "DroidSans.ttf", "DroidSans-Bold.ttf",
    "NotoColorEmoji.ttf", "NotoSans-Regular.ttf", "NotoSans-Bold.ttf"]

def isSystemCritical (path : Text) : Bool :=
  criticalPaths.any (contains · path) ||
    (contains "/system/framework/" path &&
      (contains "android" path || contains "javax" path || contains "apache" path ||
        contains "bouncycastle" path || contains "conscrypt" path || contains "core" path ||
        contains "okhttp" path))

/-- The command lines given to `system`. A path in one is taken as a single
word. -/
inductive Command where
  /-- `mount -o remount,rw /system` -/
  | mountRW
  /-- `mount -o rw,remount /system` -/
  | mountRWAlternative
  /-- `mount -o remount,ro /system` -/
  | mountRO
  /-- `mount -o ro,remount /system` -/
  | mountROAlternative
  /-- `gzip -9 path` -/
  | gzip (path : Text)
  /-- `which pngcrush` -/
  | whichPngcrush
  /-- `pngcrush -brute -reduce path output` -/
  | pngcrush (path output : Text)
  /-- `mv source path` -/
  | mv (source path : Text)
  /-- `convert path -quality quality path` -/
  | convert (path : Text) (quality : Nat)
  /-- `strip --strip-debug path` -/
  | strip (path : Text)
  /-- `zip -d path` with the patterns of the signature files -/
  | zipDelete (path : Text)
  /-- `unzip -q path -d dir` -/
  | unzip (path dir : Text)
  /-- `find dir -name '*.png' -exec convert {} -quality 60 {} \;` -/
  | findConvert (dir : Text)
  /-- `cd dir && zip -r -q path .` -/
  | zipUpdate (dir path : Text)
  /-- `rm -rf dir` -/
  | rmRf (dir : Text)
  deriving DecidableEq

/-- What the optimizer finds around it. The shell gives the exit status as
success, and what the command does to the tree. -/
structure Env where
  uid : Nat
  dryRun : Bool
  /-- The time when the file at a path is looked at. -/
  time : Text → Int
  shell : Command → Volume → Bool × List Effect
  /-- The width of `size_t`. -/
  sizeBits : Nat

structure Run where
  tree : Volume
  originalSize : Nat
  optimizedSize : Nat
  freedSpace : Nat
  /-- The commands given to `system` so far. -/
  commands : List Command
  /-- What was done to the tree so far. -/
  effects : List Effect

def Run.start (tree : Volume) : Run where
  tree := tree
  originalSize := 0
  optimizedSize := 0
  freedSpace := 0
  commands := []
  effects := []

def Run.perform (run : Run) (effects : List Effect) : Run :=
  { run with tree := run.tree.after effects, effects := run.effects ++ effects }

def Run.system (env : Env) (command : Command) (run : Run) : Bool × Run :=
  let outcome := env.shell command run.tree
  (outcome.1, { run.perform outcome.2 with commands := run.commands ++ [command] })

def Run.unlink (path : Text) (run : Run) : Bool × Run :=
  match run.tree.locate path with
  | none => (false, run)
  | some l =>
      if run.tree.node l = none ∨ run.tree.node l = some .dir then (false, run)
      else (true, run.perform [.remove l])

def Run.rmdir (path : Text) (run : Run) : Bool × Run :=
  match run.tree.locate path with
  | none => (false, run)
  | some l =>
      if run.tree.node l = some .dir ∧ run.tree.names l = [] then
        (true, run.perform [.remove l])
      else (false, run)

def Run.mkdir (path : Text) (run : Run) : Bool × Run :=
  match run.tree.locate path with
  | none => (false, run)
  | some l =>
      if run.tree.node l = none then (true, run.perform [.mkdir l]) else (false, run)

def fileExists (t : Volume) (path : Text) : Bool := (t.stat path).isSome

def directoryExists (t : Volume) (path : Text) : Bool := decide (t.stat path = some .dir)

def mountSystemRW (env : Env) (run : Run) : Bool × Run :=
  let mounted := run.system env .mountRW
  if mounted.1 then mounted else mounted.2.system env .mountRWAlternative

def mountSystemRO (env : Env) (run : Run) : Bool × Run :=
  let mounted := run.system env .mountRO
  if mounted.1 then mounted else mounted.2.system env .mountROAlternative

inductive FileType where
  | package
  | sharedlib
  | archive
  | font
  | image
  | executable
  | octetStream
  deriving DecidableEq

structure FileInfo where
  path : Text
  size : Nat
  type : FileType
  modified : Int

def fileType (path : Text) (executable : Bool) : FileType :=
  if contains ".apk" path then .package
  else if contains ".so" path then .sharedlib
  else if contains ".jar" path then .archive
  else if contains ".ttf" path || contains ".otf" path then .font
  else if contains ".png" path || contains ".jpg" path || contains ".jpeg" path then .image
  else if executable then .executable
  else .octetStream

def fileInfo (env : Env) (path : Text) (data : FileData) : FileInfo where
  path := path
  size := data.content.length % 2 ^ env.sizeBits
  type := fileType path data.executable
  modified := data.modified

/-- The path of an entry of a directory. -/
def entryPath (dir name : Text) : Text := dir ++ '/' :: name

def hidden (name : Text) : Bool := decide (name.head? = some '.')

/-- The listing of a directory and of those below it. No path of `pathMax`
names or more is ever opened, so `depth` does not run out before the paths
do. -/
def scanDirectory (env : Env) (t : Volume) : Nat → Text → Option (List FileInfo)
  | 0, _ => none
  | depth + 1, dir =>
      (t.opendir dir).map fun names => names.flatMap fun name =>
        if hidden name then []
        else
          match t.stat (entryPath dir name) with
          | some .dir => (scanDirectory env t depth (entryPath dir name)).getD []
          | some (.file data) => [fileInfo env (entryPath dir name) data]
          | _ => []

def calculateTotalSize (env : Env) (t : Volume) : Nat :=
  (((scanDirectory env t pathMax systemPath).getD []).map FileInfo.size).sum % 2 ^ env.sizeBits

def removeFile (env : Env) : Nat → Text → Run → Bool × Run
  | 0, _, run => (false, run)
  | depth + 1, path, run =>
      if env.dryRun then (true, run)
      else
        match run.tree.stat path with
        | some .dir =>
            match run.tree.opendir path with
            | none => (false, run)
            | some names =>
                (names.foldl (fun run name =>
                  if hidden name then run
                  else (removeFile env depth (entryPath path name) run).2) run).rmdir path
        | some (.file data) =>
            let unlinked := run.unlink path
            if unlinked.1 then
              (true, { unlinked.2 with freedSpace :=
                (unlinked.2.freedSpace + data.content.length) % 2 ^ env.sizeBits })
            else (false, unlinked.2)
        | _ => (false, run)

def compressFile (env : Env) (path : Text) (run : Run) : Bool × Run :=
  if env.dryRun then (true, run) else run.system env (.gzip path)

def temporary (path : Text) : Text := path ++ ".tmp".toList

def optimizePNG (env : Env) (path : Text) (run : Run) : Bool × Run :=
  if env.dryRun then (true, run)
  else
    let which := run.system env .whichPngcrush
    if which.1 then
      let crushed := which.2.system env (.pngcrush path (temporary path))
      if crushed.1 then (true, (crushed.2.system env (.mv (temporary path) path)).2)
      else (false, crushed.2)
    else which.2.system env (.convert path 80)

def stripBinary (env : Env) (path : Text) (run : Run) : Bool × Run :=
  if env.dryRun then (true, run) else run.system env (.strip path)

def compressImage (env : Env) (path : Text) (run : Run) : Bool × Run :=
  if env.dryRun then (true, run) else run.system env (.convert path 60)

def optimizeJar (env : Env) (path : Text) (run : Run) : Bool × Run :=
  if env.dryRun then (true, run)
  else (run.system env (.zipDelete path)).2.system env (.gzip path)

def isApk (file : FileInfo) : Bool := contains ".apk" file.path

/-- What follows the first underscore of the path is taken for a language. -/
def isForeignResource (file : FileInfo) : Bool :=
  match find ['_'] file.path with
  | none => false
  | some i =>
      let lang := file.path.drop (i + 1)
      ["en", "es", "fr", "de", "zh", "ja", "ko"].all (fun kept =>
        find kept.toList lang ≠ some 0) && decide (5 < lang.length)

def isPNG (file : FileInfo) : Bool := contains ".png" file.path

def isBinary (file : FileInfo) : Bool :=
  file.type = .executable || file.type = .sharedlib || contains ".so" file.path

def isSpareFont (file : FileInfo) : Bool :=
  (contains ".ttf" file.path || contains ".otf" file.path) &&
    !(essentialFonts.any (contains · file.path) || contains "Noto" file.path)

def isLargeAudio (file : FileInfo) : Bool :=
  !contains "default" file.path && !contains "Default" file.path &&
    !contains "standard" file.path && !contains "Standard" file.path &&
    decide (100 * 1024 < file.size)

def isLargeImage (file : FileInfo) : Bool :=
  (contains ".jpg" file.path || contains ".jpeg" file.path || contains ".png" file.path) &&
    decide (1024 * 1024 < file.size)

def isJar (file : FileInfo) : Bool := contains ".jar" file.path

def isStale (env : Env) (file : FileInfo) : Bool :=
  decide (7 * 24 * 60 * 60 < env.time file.path - file.modified)

def keepLocales : List String :=
  ["en", "en_US", "en_GB", "es", "es_ES", "fr", "fr_FR", "de", "de_DE", "zh", "zh_CN", "ja",
    "ja_JP", "ko", "ko_KR"]

def isUnusedLocale (file : FileInfo) : Bool :=
  !keepLocales.any (contains · file.path) && !isSystemCritical file.path

/-- Scan a directory, then act on the chosen files in the order of the
listing. -/
def forFiles (env : Env) (choose : FileInfo → Bool) (act : Text → Run → Bool × Run)
    (run : Run) (dir : Text) : Run :=
  ((scanDirectory env run.tree pathMax dir).getD []).foldl
    (fun run file => if choose file then (act file.path run).2 else run) run

/-- The same, where the directory exists. -/
def forFilesIn (env : Env) (choose : FileInfo → Bool) (act : Text → Run → Bool × Run)
    (run : Run) (dir : Text) : Run :=
  if directoryExists run.tree dir then forFiles env choose act run dir else run

def removeDirectory (env : Env) (run : Run) (dir : Text) : Run :=
  if directoryExists run.tree dir then (removeFile env pathMax dir run).2 else run

def removeUnusedApps (env : Env) (run : Run) : Bool × Run :=
  (true, (inSetOrder removableApps).foldl (fun run app =>
    removeDirectory env (removeDirectory env run (entryPath appPath app))
      (entryPath privAppPath app)) run)

def apkDirs : List Text := [appPath, privAppPath]

def compressAPKs (env : Env) (run : Run) : Bool × Run :=
  (true, apkDirs.foldl (forFiles env isApk (compressFile env)) run)

def imageDirs : List Text :=
  ["/system/framework".toList, "/system/app".toList, "/system/priv-app".toList,
    "/system/media".toList]

def optimizePNGFiles (env : Env) (run : Run) : Bool × Run :=
  (true, imageDirs.foldl (forFilesIn env isPNG (optimizePNG env)) run)

def resourceDirs : List Text := [frameworkPath, etcPath, "/system/usr".toList]

def optimizeResources (env : Env) (run : Run) : Bool × Run :=
  (true, (optimizePNGFiles env
    (resourceDirs.foldl (forFilesIn env isForeignResource (removeFile env pathMax)) run)).2)

def binDirs : List Text := [binPath, xbinPath, libPath, "/system/lib64".toList]

def removeDebugSymbols (env : Env) (run : Run) : Bool × Run :=
  (true, binDirs.foldl (forFilesIn env isBinary (stripBinary env)) run)

def archDirs : List Text :=
  ["/system/lib/arm64".toList, "/system/lib/x86".toList, "/system/lib/x86_64".toList,
    "/system/lib64".toList, "/system/vendor/lib/arm64".toList, "/system/vendor/lib/x86".toList]

def libsToRemove : List Text :=
  ["libart.so.debug".toList, "libjavacore.so.debug".toList, "libopenjdkjvm.so.debug".toList,
    "libwebviewchromium.so.debug".toList, "libchromium_net.so".toList, "libchrome.so".toList]

def removeLib (env : Env) (run : Run) (lib : Text) : Run :=
  if fileExists run.tree (entryPath libPath lib) then
    (removeFile env pathMax (entryPath libPath lib) run).2
  else run

def stripNativeLibraries (env : Env) (run : Run) : Bool × Run :=
  (true, libsToRemove.foldl (removeLib env) (archDirs.foldl (removeDirectory env) run))

def reduceFonts (env : Env) (run : Run) : Bool × Run :=
  if !directoryExists run.tree fontPath then (false, run)
  else if (scanDirectory env run.tree pathMax fontPath).isNone then (false, run)
  else (true, forFiles env isSpareFont (removeFile env pathMax) run fontPath)

def audioPath : Text := mediaPath ++ "/audio".toList

def audioDirs : List Text :=
  ["ringtones", "notifications", "alarms", "ui"].map fun name => entryPath audioPath name.toList

def cleanupAudio (env : Env) (run : Run) : Run :=
  if directoryExists run.tree audioPath then
    audioDirs.foldl (forFilesIn env isLargeAudio (removeFile env pathMax)) run
  else run

def cleanupMediaFiles (env : Env) (run : Run) : Bool × Run :=
  (true, forFiles env isLargeImage (compressImage env) (cleanupAudio env run) mediaPath)

def optimizeFramework (env : Env) (run : Run) : Bool × Run :=
  if !directoryExists run.tree frameworkPath then (false, run)
  else (true, forFiles env isJar (optimizeJar env) run frameworkPath)

def tempDirs : List Text := ["/data/local/tmp".toList, "/cache".toList, "/tmp".toList]

def cleanTemporaryFiles (env : Env) (run : Run) : Bool × Run :=
  (true, tempDirs.foldl (forFilesIn env (isStale env) (removeFile env pathMax)) run)

def localeDirs : List Text :=
  ["/system/usr/share/i18n/locales".toList, "/system/etc/locales".toList,
    "/system/usr/share/locale".toList]

def removeUnusedLocales (env : Env) (run : Run) : Bool × Run :=
  (true, localeDirs.foldl (forFilesIn env isUnusedLocale (removeFile env pathMax)) run)

def bootAnimPath : Text := mediaPath ++ "/bootanimation.zip".toList

def tmpDir : Text := "/tmp/bootanim".toList

def optimizeBootAnimation (env : Env) (run : Run) : Bool × Run :=
  if !fileExists run.tree bootAnimPath then (false, run)
  else if env.dryRun then (true, run)
  else
    let unpacked := (run.mkdir tmpDir).2.system env (.unzip bootAnimPath tmpDir)
    if !unpacked.1 then (false, unpacked.2)
    else
      let run := (unpacked.2.system env (.findConvert tmpDir)).2
      let run := (run.system env (.zipUpdate tmpDir bootAnimPath)).2
      (true, (run.system env (.rmRf tmpDir)).2)

def optimizations (env : Env) : List (Run → Bool × Run) :=
  [removeUnusedApps env, compressAPKs env, optimizeResources env, removeDebugSymbols env,
    stripNativeLibraries env, reduceFonts env, cleanupMediaFiles env, optimizeFramework env,
    cleanTemporaryFiles env, removeUnusedLocales env, optimizeBootAnimation env]

def runOptimizations (env : Env) (run : Run) : Run :=
  (optimizations env).foldl (fun run optimize => (optimize run).2) run

def measureOriginal (env : Env) (run : Run) : Run :=
  { run with originalSize := calculateTotalSize env run.tree }

/-- The second measurement. The difference is taken in `size_t`. -/
def measureOptimized (env : Env) (run : Run) : Run :=
  let optimizedSize := calculateTotalSize env run.tree
  { run with
    optimizedSize := optimizedSize
    freedSpace := (run.originalSize + 2 ^ env.sizeBits - optimizedSize) % 2 ^ env.sizeBits }

def optimizeSystem (env : Env) (path : Text) (run : Run) : Bool × Run :=
  if env.uid ≠ 0 then (false, run)
  else
    let mounted := mountSystemRW env run
    if !mounted.1 then (false, mounted.2)
    else if (scanDirectory env mounted.2.tree pathMax path).isNone then (false, mounted.2)
    else
      let run := measureOptimized env (runOptimizations env (measureOriginal env mounted.2))
      (decide (run.optimizedSize ≤ targetSize), (mountSystemRO env run).2)

section Starts

variable {env : Env} {path : Text} {run : Run}

/-- What a run checks before it comes to the passes. -/
structure Starts (env : Env) (path : Text) (run : Run) : Prop where
  root : env.uid = 0
  mounted : (mountSystemRW env run).1 = true
  scanned : (scanDirectory env (mountSystemRW env run).2.tree pathMax path).isNone = false

/-- A run that does not start does nothing, or mounts and does nothing more. -/
theorem optimizeSystem_idle (h : ¬Starts env path run) :
    (optimizeSystem env path run).2 = run ∨
      (optimizeSystem env path run).2 = (mountSystemRW env run).2 := by
  rw [optimizeSystem]
  split
  · exact .inl rfl
  · next hRoot =>
      dsimp only
      split
      · exact .inr rfl
      · next hMounted =>
          split
          · exact .inr rfl
          · next hScanned =>
              rw [Bool.not_eq_true, Bool.not_eq_false'] at hMounted
              rw [Bool.not_eq_true] at hScanned
              exact absurd ⟨not_not.mp hRoot, hMounted, hScanned⟩ h

/-- A run that starts mounts, measures, goes through the passes, measures
again, and mounts back. -/
theorem optimizeSystem_passes (h : Starts env path run) :
    (optimizeSystem env path run).2 =
      (mountSystemRO env (measureOptimized env (runOptimizations env
        (measureOriginal env (mountSystemRW env run).2)))).2 := by
  rw [optimizeSystem, if_neg (not_not.mpr h.root)]
  dsimp only
  rw [h.mounted, h.scanned, Bool.not_true, if_neg Bool.false_ne_true, if_neg Bool.false_ne_true]

end Starts

/-- A device with one framework archive, an application that stays and one
that does not. -/
def device : Volume where
  entries :=
    [(["system".toList], .dir),
      (["system".toList, "framework".toList], .dir),
      (["system".toList, "framework".toList, "framework.jar".toList],
        .file { content := [80, 75, 3, 4], modified := 0, executable := false }),
      (["system".toList, "app".toList], .dir),
      (["system".toList, "app".toList, "Email".toList], .dir),
      (["system".toList, "app".toList, "Email".toList, "Email.apk".toList],
        .file { content := [80, 75, 1, 2], modified := 0, executable := false }),
      (["system".toList, "app".toList, "Settings".toList], .dir),
      (["system".toList, "app".toList, "Settings".toList, "Settings.apk".toList],
        .file { content := [80, 75, 5, 6], modified := 0, executable := false })]
  cwd := []

end SystemOptimizer
