import FactorSearch.World
import FactorSearch.Proofs.FileTree

/-!
Hosts with files, of which nothing is known but what a world says of them. Time may pass in such
a host, and it may measure and draw what it likes. An action is described by what it makes of
the files that it begins with.
-/

namespace FactorSearch

section Actions

variable {σ ε α β : Type}

theorem run_bind_ok {x : ExceptT ε (StateM σ) α} {f : α → ExceptT ε (StateM σ) β} {s s' : σ} {a : α}
    (h : x.run.run s = (.ok a, s')) : (x >>= f).run.run s = (f a).run.run s' := by
  rw [ExceptT.run_bind, StateT.run_bind, h]
  rfl

theorem run_bind_error {x : ExceptT ε (StateM σ) α} {f : α → ExceptT ε (StateM σ) β} {s s' : σ}
    {e : ε} (h : x.run.run s = (.error e, s')) : (x >>= f).run.run s = (.error e, s') := by
  rw [ExceptT.run_bind, StateT.run_bind, h]
  rfl

theorem eq_ok_of_toOption {x : Except ε α} {a : α} (h : x.toOption = some a) :
    x = .ok a := by
  cases x with
  | error e => cases h
  | ok b =>
    cases h
    rfl

/-- The answer is a function of the files, which stay as they are. -/
def Looks (files : σ → World) (x : StateM σ α) (f : World → α) : Prop :=
  ∀ s, (x.run s).1 = f (files s) ∧ files (x.run s).2 = files s

/-- Whatever the answer, the files stay as they are. -/
def Keeps (files : σ → World) (x : StateM σ α) : Prop := ∀ s, files (x.run s).2 = files s

theorem Keeps.pure {files : σ → World} (a : α) : Keeps files (Pure.pure a : StateM σ α) := fun _ => rfl

theorem Keeps.bind {files : σ → World} {x : StateM σ α} {f : α → StateM σ β} (hx : Keeps files x)
    (hf : ∀ a, Keeps files (f a)) : Keeps files (x >>= f) := fun s => (hf _ _).trans (hx s)

/-- A function of what is looked at. -/
theorem Looks.map {files : σ → World} {x : ExceptT ε (StateM σ) α} {f : World → Except ε α}
    (hx : Looks files x.run f) (g : α → β) :
    Looks files (x >>= fun a => Pure.pure (g a)).run fun w => (f w).map g := by
  intro s
  obtain ⟨hanswer, hfiles⟩ := hx s
  cases hrun : x.run.run s with
  | mk answer s' =>
    rw [hrun] at hanswer hfiles
    simp only at hanswer hfiles ⊢
    rw [← hanswer]
    cases answer with
    | ok a =>
      rw [run_bind_ok hrun]
      exact ⟨rfl, hfiles⟩
    | error e =>
      rw [run_bind_error hrun]
      exact ⟨rfl, hfiles⟩

end Actions

/-- What is assumed of a host: its files are those of a world, and looking at them answers as
the world does. A write happens whole or not at all. It fails only where the world refuses its
path for what the path leads to, never for want of room or permission. Nothing else that the
host does touches the files, neither printing nor measuring nor drawing numbers, and no one
else touches them between two actions. -/
class FileHost (σ : Type) extends Host (StateM σ) where
  files : σ → World
  isDirectory_looks (path : String) : Looks files (isDirectory path) fun w => w.isDirectory path
  present_looks (path : String) : Looks files (present path).run fun w => w.present path
  listDirectory_looks (path : String) : Looks files (listDirectory path).run fun w => w.list path
  readFile_looks (path : String) : Looks files (readFile path).run fun w => w.read path
  writeFile_ok (path text : String) (s : σ) (w : World) (h : (files s).write path text = .ok w) :
    ((writeFile path text).run.run s).1 = .ok () ∧ files ((writeFile path text).run.run s).2 = w
  writeFile_error (path text : String) (s : σ) (e : AccessError)
    (h : (files s).write path text = .error e) :
    ((writeFile path text).run.run s).1 = .error e ∧
      files ((writeFile path text).run.run s).2 = files s
  print_keeps (text : String) : Keeps files (print text)
  printError_keeps (text : String) : Keeps files (printError text)
  clock_keeps : Keeps files clock
  workTime_keeps : Keeps files workTime
  memory_keeps : Keeps files memory
  showProgress_keeps (name : String) (percent : Int) : Keeps files (showProgress name percent)
  draw_keeps (seed : Option ℕ) (bound count : ℕ) (h : 2 < bound) :
    Keeps files (draw seed bound count h)

namespace World

/-- The files alone, without the text printed so far. -/
def silent (w : World) : World := { w with output := "", errors := "" }

variable (w : World) (path : String)

theorem entry?_silent (p : Place) : entry? w.silent p = entry? w p := by
  cases p <;> rfl

theorem walk_silent (p : Place) (names : List String) : w.silent.walk p names = w.walk p names := by
  induction names generalizing p with
  | nil =>
    unfold walk
    rw [entry?_silent]
  | cons name rest ih =>
    unfold walk
    simp only [entry?_silent, ih]

theorem locateNames_silent (names : List String) :
    w.silent.locateNames path names = w.locateNames path names := by
  unfold locateNames
  rw [walk_silent]
  rfl

theorem locate_silent : w.silent.locate path = w.locate path := w.locateNames_silent path _

theorem isDirectory_silent : w.silent.isDirectory path = w.isDirectory path := by
  unfold isDirectory
  rw [locate_silent]

theorem present_silent : w.silent.present path = w.present path := by
  unfold present
  rw [locate_silent]

theorem list_silent : w.silent.list path = w.list path := by
  unfold list
  rw [locate_silent]
  rfl

theorem read_silent : w.silent.read path = w.read path := by
  unfold read
  rw [locate_silent]

theorem write_silent (text : String) :
    w.silent.write path text = (w.write path text).map silent := by
  unfold write
  simp only [locateNames_silent]
  split
  · rfl
  split
  · rfl
  · rfl
  · split <;> rfl
  · split <;> rfl

theorem map_eq_ok {ε α β : Type} {f : α → β} {x : Except ε α} {b : β} (h : x.map f = .ok b) :
    ∃ a, x = .ok a ∧ f a = b := by
  cases x with
  | error e => cases h
  | ok a =>
    cases h
    exact ⟨a, rfl, rfl⟩

theorem map_eq_error {ε α β : Type} {f : α → β} {x : Except ε α} {e : ε}
    (h : x.map f = .error e) : x = .error e := by
  cases x with
  | error e =>
    cases h
    rfl
  | ok a => cases h

theorem run_change_ok {f : World → Except AccessError World} {w v : World} (h : f w = .ok v) :
    (change f).run.run w = (.ok (), v) := by
  have hlook : (look f).run.run w = (.ok v, w) := congrArg (fun r => (r, w)) h
  exact run_bind_ok hlook

theorem run_change_error {f : World → Except AccessError World} {w : World} {e : AccessError}
    (h : f w = .error e) : (change f).run.run w = (.error e, w) := by
  have hlook : (look f).run.run w = (.error e, w) := congrArg (fun r => (r, w)) h
  exact run_bind_error hlook

instance : FileHost World where
  files := silent
  isDirectory_looks path w := ⟨(w.isDirectory_silent path).symm, rfl⟩
  present_looks path w := ⟨(w.present_silent path).symm, rfl⟩
  listDirectory_looks path w := ⟨(w.list_silent path).symm, rfl⟩
  readFile_looks path w := ⟨(w.read_silent path).symm, rfl⟩
  writeFile_ok path text w w' h := by
    rw [write_silent] at h
    obtain ⟨v, hv, rfl⟩ := map_eq_ok h
    have hrun : (Host.writeFile path text : ExceptT AccessError (StateM World) Unit).run.run w =
        (.ok (), v) := run_change_ok hv
    rw [hrun]
    exact ⟨rfl, rfl⟩
  writeFile_error path text w e h := by
    rw [write_silent] at h
    have hrun : (Host.writeFile path text : ExceptT AccessError (StateM World) Unit).run.run w =
        (.error e, w) := run_change_error (map_eq_error h)
    rw [hrun]
    exact ⟨rfl, rfl⟩
  print_keeps _ _ := rfl
  printError_keeps _ _ := rfl
  clock_keeps _ := rfl
  workTime_keeps _ := rfl
  memory_keeps _ := rfl
  showProgress_keeps _ _ _ := rfl
  draw_keeps _ _ _ _ _ := rfl

end World

namespace FileHost

variable {σ : Type} [FileHost σ] {ε α β : Type} {w : World}

/-- Begun with the given files, the action ends with an answer and files that satisfy `post`. -/
def Ends (w : World) (x : StateM σ α) (post : α → World → Prop) : Prop :=
  ∀ s, files s = w → post (x.run s).1 (files (x.run s).2)

namespace Ends

variable {x : StateM σ α} {post : α → World → Prop}

theorem pure {a : α} (h : post a w) : Ends w (Pure.pure a : StateM σ α) post := by
  rintro s rfl
  exact h

theorem bind {f : α → StateM σ β} {post : β → World → Prop}
    (h : Ends w x fun a w' => Ends w' (f a) post) : Ends w (x >>= f) post :=
  fun s hs => h s hs _ rfl

theorem mono {post' : α → World → Prop} (h : Ends w x post) (hpost : ∀ a w', post a w' → post' a w') :
    Ends w x post' := fun s hs => hpost _ _ (h s hs)

theorem of_looks {f : World → α} (hx : Looks files x f) (h : post (f w) w) : Ends w x post := by
  rintro s rfl
  obtain ⟨hanswer, hfiles⟩ := hx s
  rw [hanswer, hfiles]
  exact h

theorem of_keeps (hx : Keeps files x) (h : ∀ a, post a w) : Ends w x post := by
  rintro s rfl
  rw [hx s]
  exact h _

end Ends

/-- The same for an action that may fail. -/
def Tries (w : World) (x : ExceptT ε (StateM σ) α) (post : Except ε α → World → Prop) : Prop :=
  Ends w x.run post

namespace Tries

variable {x : ExceptT ε (StateM σ) α} {post : Except ε α → World → Prop}

theorem pure {a : α} (h : post (.ok a) w) : Tries w (Pure.pure a : ExceptT ε (StateM σ) α) post :=
  Ends.pure h

theorem throw {e : ε} (h : post (.error e) w) :
    Tries w (MonadExcept.throw e : ExceptT ε (StateM σ) α) post := Ends.pure h

theorem lift {y : StateM σ α} (h : Ends w y fun a w' => post (.ok a) w') :
    Tries w (ExceptT.lift y : ExceptT ε (StateM σ) α) post := by
  exact fun s hs => h s hs

theorem of_keeps {y : StateM σ α} (hy : Keeps files y) (h : ∀ a, post (.ok a) w) :
    Tries w (liftM y : ExceptT ε (StateM σ) α) post := Tries.lift (Ends.of_keeps hy h)

/-- The same, where it matters that some state has given the answer. -/
theorem of_answer {y : StateM σ α} (hy : Keeps files y) (h : ∀ s, post (.ok (y.run s).1) w) :
    Tries w (liftM y : ExceptT ε (StateM σ) α) post := by
  rintro s rfl
  show post (.ok (y.run s).1) (files (y.run s).2)
  rw [hy s]
  exact h s

/-- After a success the next action goes on; a failure ends everything. -/
theorem bind {f : α → ExceptT ε (StateM σ) β} {post : Except ε β → World → Prop}
    (hok : Tries w x fun r w' => match r with
      | .ok a => Tries w' (f a) post
      | .error e => post (.error e) w') : Tries w (x >>= f) post := by
  intro s hs
  have h := hok s hs
  cases hx : x.run.run s with
  | mk r s' =>
    rw [hx] at h
    cases r with
    | ok a =>
      have hrun : (x >>= f).run.run s = (f a).run.run s' := run_bind_ok hx
      rw [hrun]
      exact h s' rfl
    | error e =>
      have hrun : (x >>= f).run.run s = (.error e, s') := run_bind_error hx
      rw [hrun]
      exact h

theorem tryCatch {f : ε → ExceptT ε (StateM σ) α}
    (h : Tries w x fun r w' => match r with
      | .ok a => post (.ok a) w'
      | .error e => Tries w' (f e) post) : Tries w (MonadExcept.tryCatch x f) post := by
  intro s hs
  have h := h s hs
  cases hx : x.run.run s with
  | mk r s' =>
    rw [hx] at h
    have hcatch : (MonadExcept.tryCatch x f).run.run s =
        (match r with | .ok a => Pure.pure (.ok a) | .error e => (f e).run : StateM σ _).run s' := by
      rw [ExceptT.run_tryCatch, StateT.run_bind, hx]
      rfl
    rw [hcatch]
    cases r with
    | ok a => exact h
    | error e => exact h s' rfl

theorem forM {ι : Type} {xs : List ι} {y : ι → StateM σ PUnit}
    {post : Except ε PUnit → World → Prop} (hy : ∀ i, Keeps files (y i)) (h : post (.ok ()) w) :
    Tries w (xs.forM fun i => (liftM (y i) : ExceptT ε (StateM σ) PUnit)) post := by
  induction xs with
  | nil => exact Tries.pure h
  | cons i rest ih => exact Tries.bind (Tries.of_keeps (hy i) fun _ => ih)

theorem mono {post' : Except ε α → World → Prop} (h : Tries w x post)
    (hpost : ∀ r w', post r w' → post' r w') : Tries w x post' := Ends.mono h hpost

end Tries

end FileHost

end FactorSearch
