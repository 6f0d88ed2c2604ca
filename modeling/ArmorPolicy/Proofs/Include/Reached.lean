import ArmorPolicy.Proofs.Include.Transparency

/-!
# Sessions that are reached by reading

However a session was reached, its memo is valid and no file is in progress.  So what was read before
does not change what is read next, up to spellings of paths.
-/

namespace ArmorPolicy

variable {α β : Type} {files : FileSystem} {config : Config} {session : Session}

/-- Sessions that readings lead to, whether they succeed or fail. -/
inductive Session.Reached (files : FileSystem) (config : Config) : Session → Prop
  | new : Reached files config { config }
  | text {session : Session} (content filename : String) (before : Reached files config session) :
      Reached files config ((Reading.text files content filename).outcome session).2
  | file {session : Session} (path : String) (before : Reached files config session) :
      Reached files config ((Reading.file files path).outcome session).2
  | included {session : Session} (path : String) (before : Reached files config session) :
      Reached files config ((Include.read files path).outcome session).2
  | directory {session : Session} (path : String) (before : Reached files config session) :
      Reached files config ((Reading.directory files path).outcome session).2

structure Session.Sound (files : FileSystem) (config : Config) (session : Session) : Prop where
  configured : session.config = config
  idle : session.inProgress = []
  valid : Include.Valid files config session.memo

/-- The later session is sound, and nothing has been forgotten. -/
structure Session.Continues (files : FileSystem) (config : Config) (before after : Session) : Prop where
  sound : after.Sound files config
  grows : Include.Extends [] before.memo after.memo

namespace Reading

open Include Reader

/-- The reading leaves a sound session sound and forgets nothing. -/
def Keeps (files : FileSystem) (config : Config) (reading : Reading α) : Prop :=
  ∀ session : Session, session.Sound files config →
    Session.Continues files config session (reading.outcome session).2

theorem Follows.keeps {reading : Reading α} {loading : Loading α}
    (follows : reading.Follows config [] loading)
    (valid : ∀ memo, Valid files config memo → Valid files config (loading memo).2)
    (grows : ∀ memo, Extends [] memo (loading memo).2) : reading.Keeps files config := by
  intro session sound
  obtain ⟨warnings, outcome⟩ := follows session sound.configured sound.idle
  rw [outcome]
  exact ⟨⟨sound.configured, sound.idle, valid session.memo sound.valid⟩, grows session.memo⟩

theorem keeps_ofChecked (result : Checked α) : (ofChecked result).Keeps files config :=
  (follows_ofChecked result).keeps (fun _ valid => valid) (.refl [])

theorem Keeps.bind {reading : Reading α} {next : α → Reading β} (first : reading.Keeps files config)
    (second : ∀ a, (next a).Keeps files config) : (reading >>= next).Keeps files config := by
  intro session sound
  have between := first session sound
  rw [outcome_bind]
  rcases attempt : reading.outcome session with ⟨error | a, middle⟩
  · rwa [attempt] at between
  · rw [attempt] at between
    have after := second a middle between.sound
    exact ⟨after.sound, between.grows.trans after.grows⟩

theorem keeps_mapM {next : α → Reading β} (one : ∀ a, (next a).Keeps files config) (all : List α) :
    (all.mapM next).Keeps files config := by
  induction all with
  | nil => exact keeps_ofChecked (.ok [])
  | cons a rest ih =>
    rw [List.mapM_cons]
    exact (one a).bind fun b => ih.bind fun bs => keeps_ofChecked (.ok (b :: bs))

theorem keeps_read (path : String) : (Include.read files path).Keeps files config :=
  (follows_readWithin files (files.size + 2) path).keeps (fun _ valid => valid.load _ _ _)
    (extends_load files config (files.size + 2) [] path)

theorem keeps_text (content filename : String) : (text files content filename).Keeps files config := by
  refine (follows_text files content filename).keeps (fun memo valid => ?_) fun memo => ?_ <;>
    rw [loadText, perform, Loading.snd_bind_ofChecked, Loading.snd_bind_ofChecked]
  · exact answer_keeps (P := Valid files config) (fun path _ known => known.load _ [] path) _ _ valid
  · exact extends_answer (extends_load files config (files.size + 2) []) filename _ memo

theorem keeps_file (path : String) : (file files path).Keeps files config :=
  (keeps_ofChecked _).bind fun content => keeps_text content path

theorem keeps_directory (path : String) : (directory files path).Keeps files config :=
  (keeps_ofChecked _).bind fun paths => keeps_mapM (fun path => keeps_file path) paths

end Reading

theorem Session.Reached.sound (reached : session.Reached files config) : session.Sound files config := by
  induction reached with
  | new => exact ⟨rfl, rfl, Include.valid_empty files config⟩
  | text content filename _ ih => exact (Reading.keeps_text content filename _ ih).sound
  | file path _ ih => exact (Reading.keeps_file path _ ih).sound
  | included path _ ih => exact (Reading.keeps_read path _ ih).sound
  | directory path _ ih => exact (Reading.keeps_directory path _ ih).sound

namespace Include

open Reading Reader

theorem aligned_empty {memo : Memo} (valid : Valid files config memo) :
    Aligned files config [] .empty memo where
  within _ _ known := nomatch known
  valid := valid
  fresh _ inside := nomatch inside

theorem alike_load_outside {smaller larger : Memo} (aligned : Aligned files config [] smaller larger)
    (path : String) :
    Alike files (Aligned files config []) Fragment.Respelled
      (load files config (files.size + 2) [] path smaller)
      (load files config (files.size + 2) [] path larger) := by
  have enough := length_unused_nil_le files
  exact aligned.alike (alike_load aligned trivial (by omega))

theorem alike_loadText {smaller larger : Memo} (aligned : Aligned files config [] smaller larger)
    (content filename : String) :
    Alike files (Aligned files config []) Eq (loadText files config [] content filename smaller)
      (loadText files config [] content filename larger) := by
  have answered : Alike files (Aligned files config []) (fun _ _ => True)
      (answer (load files config (files.size + 2) []) filename
        (requests (wanted files config) (planText .profiles config.hatsFor filename content).asked) smaller)
      (answer (load files config (files.size + 2) []) filename
        (requests (wanted files config) (planText .profiles config.hatsFor filename content).asked) larger) := by
    refine alike_answer ?_ aligned
    intro before line path behind _ first second _ _ here
    have one := alike_load_outside here path
    exact ⟨one.results.imp fun _ _ _ => trivial, one.memos⟩
  rw [loadText, perform, Loading.bind_assoc]
  refine answered.bind fun _ _ first second _ here => ?_
  cases (planText .profiles config.hatsFor filename content).result with
  | error error => exact ⟨.error error, by rintro _ ⟨⟩⟩
  | ok state => exact ⟨.ok rfl, fun _ _ => here⟩

/-- The memo is transparent up to spellings.  In every session that readings lead to, an included file
gives the same fragment or the same error as in a new session, and a text gives the same profiles or
the same error.  The fragment may carry the spelling of its path under which it was read before, and a
report that the new session makes of a misspelled path may be missing. -/
theorem agrees_of_reached (reached : session.Reached files config) :
    (∀ path, Agrees files Fragment.Respelled ((read files path).outcome { config }).1
      ((read files path).outcome session).1) ∧
    ∀ content filename, Agrees files Eq ((text files content filename).outcome { config }).1
      ((text files content filename).outcome session).1 := by
  have sound := reached.sound
  have aligned := aligned_empty sound.valid
  constructor
  · intro path
    obtain ⟨_, fresh⟩ := follows_readWithin files (files.size + 2) path { config } rfl rfl
    obtain ⟨_, later⟩ := follows_readWithin files (files.size + 2) path session
      sound.configured sound.idle
    rw [read, fresh, later]
    exact (alike_load_outside aligned path).results
  · intro content filename
    obtain ⟨_, fresh⟩ := follows_text files content filename { config } rfl rfl
    obtain ⟨_, later⟩ := follows_text files content filename session sound.configured sound.idle
    rw [fresh, later]
    exact (alike_loadText aligned content filename).results

def loneFile (text : String) : FileSystem := FileSystem.write {} ["x"] (.file text.toUTF8)

theorem agrees_of_reached_respelled :
    Session.Reached (loneFile "/a r,\n") {} ((read (loneFile "/a r,\n") "/x").outcome {}).2 ∧
      Agrees (loneFile "/a r,\n") Fragment.Respelled
        ((read (loneFile "/a r,\n") "//x/.").outcome {}).1 ((read (loneFile "/a r,\n") "//x/.").outcome
          ((read (loneFile "/a r,\n") "/x").outcome {}).2).1 :=
  ⟨.included "/x" .new, (agrees_of_reached (.included "/x" .new)).1 "//x/."⟩

/-- A file that has been read is found under every spelling of its name, also where a new session
would find none. -/
theorem read_respelled {path other : String} {fragment : Fragment} (sound : session.Sound files config)
    (success : ((read files path).outcome session).1 = .ok fragment)
    (same : files.includeName other = files.includeName path) :
    ((read files other).outcome ((read files path).outcome session).2).1 = .ok fragment := by
  have kept := (keeps_read path session sound).sound
  obtain ⟨_, first⟩ := follows_readWithin files (files.size + 2) path session sound.configured sound.idle
  obtain ⟨_, second⟩ := follows_readWithin files (files.size + 2) other _ kept.configured kept.idle
  rw [read, first] at success
  have known := known_of_load (Prod.ext success rfl)
  rw [← same] at known
  rw [read, second, read, first, load_known known]

/-- A path that leads to no file is found once the file has been read under its proper path. -/
theorem found_after_reading :
    ((read (loneFile "/a r,\n") "/x/").outcome {}).1 = refuse (.includeMissing "/x/") ∧
      ∃ fragment, ((read (loneFile "/a r,\n") "/x/").outcome
        ((read (loneFile "/a r,\n") "/x").outcome {}).2).1 = .ok fragment := by
  have key : (loneFile "/a r,\n").includeKey "/x" = "/x" := by decide +kernel
  have file : (loneFile "/a r,\n").isFile "/x" = true := by decide +kernel
  have content : (loneFile "/a r,\n").readText "/x" = .ok "/a r,\n" := by decide +kernel
  have asks : requestsOf (loneFile "/a r,\n") {} "/a r,\n" = [] := by decide +kernel
  have same : (loneFile "/a r,\n").includeName "/x/" = (loneFile "/a r,\n").includeName "/x" := by decide +kernel
  obtain ⟨fragment, gives⟩ : ∃ fragment, given {} "/x" "/a r,\n" = .ok fragment := by
    have accepted : (given {} "/x" "/a r,\n").isOk = true := by decide +kernel
    cases outcome : given {} "/x" "/a r,\n" with
    | ok fragment => exact ⟨fragment, rfl⟩
    | error error =>
      rw [outcome] at accepted
      cases accepted
  refine ⟨by decide +kernel, fragment, read_respelled Session.Reached.new.sound ?_ same⟩
  obtain ⟨_, first⟩ := follows_readWithin (loneFile "/a r,\n") ((loneFile "/a r,\n").size + 2) "/x" {} rfl rfl
  rw [read, first, load_file rfl (by simp) (by rw [key]; exact file), key, content]
  simp only [Loading.bind, Loading.ofChecked, asks, gives, answer, remember]

end Include

end ArmorPolicy
