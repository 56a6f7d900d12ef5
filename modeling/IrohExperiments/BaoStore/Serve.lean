import IrohExperiments.BaoStore.Store
import IrohExperiments.Lib.Codec

/-!
# Serving a collection

`serve_s3` lists a bucket, imports each of its files from its url, and adds a collection with all of them: a
blob with the names, and one with the hashes.  What it prints is the hash of the last blob.  `serve_urls` does
the same for urls that are given.  Time passes while the urls are read one after the other, so each of them
may be asked for its size and read from another web.

Who has the hash can download the collection from the store.  How it is made of blobs and taken apart again is
up to a library (`Collections`): what is relied on is that a collection that was made can be downloaded blob by
blob.  `serveS3_serves` says what comes out: nothing but the files as they were when they were imported, under
the names of the listing; and all of them, as long as the urls still begin with them.  `serveUrls_serves` is
the same for the other command, whose names come from the urls.
-/

namespace IrohExperiments.BaoStore

open Tracker (Hash)

theorem bind_eq_ok {α β : Type} {x : Except String α} {f : α → Except String β} {b : β} :
    x >>= f = .ok b ↔ ∃ a, x = .ok a ∧ f a = .ok b := by
  cases x with
  | error e => exact iff_of_false nofun nofun
  | ok a => exact ⟨fun h => ⟨a, rfl, h⟩, fun ⟨_, ha, h⟩ => Except.ok.inj ha ▸ h⟩

/-- What is used of the libraries for listings, urls and collections. -/
class Collections where
  /-- The keys in the listing of a bucket. -/
  fromStr : List UInt8 → Except String (List String)
  join : Url → String → Except String Url
  toBlobs : List (String × Hash) → List (List UInt8)
  /-- What comes out if somebody asks for a collection, with what is provided for each hash. -/
  download : (Hash → Option (List UInt8)) → Hash → Option (List (String × List UInt8))

/-- A collection is two blobs, one for the names and one for the hashes.  If both are provided, then it is
downloaded by asking for each of the hashes. -/
def Collections.Lawful [Bao] [Collections] : Prop :=
  ∀ collection, ∃ first links, toBlobs collection = [first, links] ∧
    ∀ provide, provide (Bao.blake3 first) = some first → provide (Bao.blake3 links) = some links →
      ∀ contents, download provide (Bao.blake3 links) = some contents ↔
        ∃ datas, (collection.map Prod.snd).mapM provide = some datas ∧
          contents = (collection.map Prod.fst).zip datas

section Serve

variable [Bao] [HttpAdapter] [Collections]

/-! ## The commands -/

/-- `replace('/', "_")`. -/
def safeName (url : Url) : String := url.map fun c => if c = '/' then '_' else c

/-- The loop over the urls.  Each is asked for its size and read from the web as it is then. -/
def importUrls (asked fetch : ℕ → Web) :
    ℕ → List (String × Except String Url) → Store → List (String × Hash) →
      Except String (Store × List (String × Hash))
  | _, [], db, hashes => .ok (db, hashes)
  | i, (name, url) :: items, db, hashes => do
      let url ← url
      let (hash, db) ← db.importUrl (asked i) (fetch i) url
      importUrls asked fetch (i + 1) items db (hashes ++ [(name, hash)])

/-- The loop over the blobs of the collection. -/
def importBlobs : List (List UInt8) → Store → Option Hash → Store × Option Hash
  | [], db, lastHash => (db, lastHash)
  | blob :: blobs, db, _ =>
      let (hash, db) := db.importMem blob
      importBlobs blobs db (some hash)

/-- What is served: the store, the names and hashes that were imported, and the hash of the collection. -/
structure Served where
  db : Store
  hashes : List (String × Hash)
  lastHash : Option Hash

def serveCollection (db : Store) (hashes : List (String × Hash)) : Served :=
  let (db, lastHash) := importBlobs (Collections.toBlobs hashes) db none
  ⟨db, hashes, lastHash⟩

def serveS3 (asked fetch : ℕ → Web) (root : Url) (name : Option String) : Except String Served := do
  let xml ← match HttpAdapter.readToEnd (asked 0) (fetch 0) root with
    | some xml => .ok xml
    | none => .error "request failed"
  let keys ← Collections.fromStr xml
  let first := name.getD (safeName root)
  let (db, hashes) ← importUrls asked fetch 1
    (keys.map fun path => (first ++ "/" ++ path, Collections.join root path)) Store.default []
  return serveCollection db hashes

def serveUrls (asked fetch : ℕ → Web) (urls : List Url) : Except String Served := do
  let (db, hashes) ← importUrls asked fetch 0 (urls.map fun url => (safeName url, .ok url))
    Store.default []
  return serveCollection db hashes

/-! ## What was imported -/

/-- A file, as it was when it was imported. -/
structure Imported where
  name : String
  url : Url
  data : List UInt8

def Imported.import (self : Imported) : List UInt8 × DataDescriptor := (self.data, .Url self.url)

def Imported.link (self : Imported) : String × Hash := (self.name, Bao.blake3 self.data)

/-- The imports that were made for some files, and for the collection of them. -/
def importsOf (files : List Imported) : Store.Imports :=
  files.map Imported.import ++
    (Collections.toBlobs (files.map Imported.link)).map fun blob => (blob, .Inline blob)

variable {asked fetch : ℕ → Web} {db db' : Store} {imports : Store.Imports}

omit [Collections] in
/-- **The loop over the urls**: all of them were read, in the order they are given. -/
theorem importUrls_eq_ok (laws : Bao.Lawful) (hhttp : HttpAdapter.Lawful) {i : ℕ}
    {items : List (String × Except String Url)} {hashes hashes' : List (String × Hash)} (h : db.Holds imports)
    (hok : importUrls asked fetch i items db hashes = .ok (db', hashes')) :
    ∃ files : List Imported, items = files.map (fun f => (f.name, .ok f.url)) ∧
      (∀ j f, files[j]? = some f → ReadFrom (asked (i + j)) (fetch (i + j)) f.url f.data) ∧
      hashes' = hashes ++ files.map Imported.link ∧
      db'.Holds (imports ++ files.map Imported.import) := by
  induction items generalizing i db hashes imports with
  | nil =>
      cases hok
      exact ⟨[], rfl, nofun, (List.append_nil _).symm, by rwa [List.map_nil, List.append_nil]⟩
  | cons item items ih =>
      obtain ⟨name, url⟩ := item
      cases url with
      | error e => cases hok
      | ok url =>
          obtain ⟨_, heq, hok⟩ := bind_eq_ok.mp hok
          cases heq
          obtain ⟨⟨hash, mid⟩, hread, hok⟩ := bind_eq_ok.mp hok
          rw [Store.importUrl] at hread
          cases hdata : HttpAdapter.readToEnd (asked i) (fetch i) url with
          | none =>
              rw [hdata] at hread
              cases hread
          | some data =>
              rw [hdata] at hread
              cases hread
              obtain ⟨files, rfl, hfetch, rfl, hholds⟩ := ih (h.insertData laws fun _ heq => by cases heq) hok
              refine ⟨⟨name, url, data⟩ :: files, rfl, fun j f hf => ?_, ?_, ?_⟩
              · cases j with
                | zero =>
                    cases hf
                    exact (hhttp.readToEnd_eq_some_iff _ _ _ _).mp hdata
                | succ j =>
                    rw [← Nat.add_assoc, Nat.add_right_comm]
                    exact hfetch j f hf
              · rw [List.map_cons, List.append_assoc, List.singleton_append, Imported.link]
                exact congrArg (fun hash => hashes ++ (name, hash) :: _) (Store.hash_ofData laws data (.Url url))
              · rwa [List.append_assoc] at hholds

omit [HttpAdapter] [Collections] in
/-- **The loop over the blobs.** -/
theorem holds_importBlobs (laws : Bao.Lawful) (h : db.Holds imports) (blobs : List (List UInt8))
    (lastHash : Option Hash) :
    (importBlobs blobs db lastHash).1.Holds
        (imports ++ blobs.map fun blob => (blob, .Inline blob)) ∧
      ∀ blob ∈ blobs.getLast?, (importBlobs blobs db lastHash).2 = some (Bao.blake3 blob) := by
  induction blobs generalizing db imports lastHash with
  | nil =>
      rw [List.map_nil, List.append_nil]
      exact ⟨h, nofun⟩
  | cons blob blobs ih =>
      obtain ⟨hholds, hlast⟩ := ih (h.insertData laws fun _ heq => (DataDescriptor.Inline.inj heq).symm)
        (some (db.importMem blob).1)
      refine ⟨?_, fun last hmem => ?_⟩
      · rwa [List.append_assoc] at hholds
      · cases blobs with
        | nil =>
            cases hmem
            exact congrArg some (Store.hash_ofData laws blob _)
        | cons => exact hlast last hmem

omit [HttpAdapter] in
/-- What is in the store in the end. -/
theorem holds_serveCollection (laws : Bao.Lawful) (claws : Collections.Lawful)
    {files : List Imported} (h : db.Holds (files.map Imported.import)) :
    ∃ first links, Collections.toBlobs (files.map Imported.link) = [first, links] ∧
      (∀ provide, provide (Bao.blake3 first) = some first →
        provide (Bao.blake3 links) = some links → ∀ contents,
          Collections.download provide (Bao.blake3 links) = some contents ↔
            ∃ datas, (files.map fun f => Bao.blake3 f.data).mapM provide = some datas ∧
              contents = (files.map Imported.name).zip datas) ∧
      (serveCollection db (files.map Imported.link)).lastHash = some (Bao.blake3 links) ∧
      (serveCollection db (files.map Imported.link)).db.Holds (importsOf files) := by
  obtain ⟨first, links, hblobs, hdownload⟩ := claws (files.map Imported.link)
  rw [List.map_map, List.map_map] at hdownload
  obtain ⟨hholds, hlast⟩ := holds_importBlobs laws h (Collections.toBlobs (files.map Imported.link)) none
  refine ⟨first, links, hblobs, hdownload, hlast links ?_, hholds⟩
  rw [hblobs]
  rfl

/-! ## What is downloaded -/

/-- The file can still be read. -/
def Imported.OnWeb (web : Web) (f : Imported) : Prop :=
  ∃ bytes, web f.url = some bytes ∧ f.data <+: bytes

variable [Transfer] {web : Web} {files : List Imported}

/-- A blob of the collection was imported last of all data with its hash, and from memory. -/
theorem provide_blob (hhttp : HttpAdapter.Lawful) (htransfer : Transfer.Lawful) (h : db.Holds (importsOf files))
    (hnc : Store.NoCollision web (importsOf files)) {blob : List UInt8}
    (hblob : blob ∈ Collections.toBlobs (files.map Imported.link)) :
    db.provide web (Bao.blake3 blob) = some blob := by
  have hmem : (blob, DataDescriptor.Inline blob) ∈ importsOf files :=
    List.mem_append_right _ (List.mem_map.mpr ⟨blob, hblob, rfl⟩)
  obtain ⟨last, ⟨earlier, newer, heq, _, hnewer⟩, _, hprovide⟩ := h.provide_eq_some_iff hhttp htransfer hnc hmem
  refine (hprovide blob).mpr ⟨rfl, ?_⟩
  cases last with
  | Inline bytes => trivial
  | Url url =>
      -- an import of a url comes before the blob, which then would have to be newer
      rcases List.append_eq_append_iff.mp heq with ⟨mid, hearlier, hblobs⟩ | ⟨mid, hfiles, hblobs⟩
      · have hurl : (blob, DataDescriptor.Url url) ∈
            (Collections.toBlobs (files.map Imported.link)).map fun blob => (blob, .Inline blob) := by
          rw [hblobs]
          exact List.mem_append_right _ List.mem_cons_self
        obtain ⟨_, _, habsurd⟩ := List.mem_map.mp hurl
        cases (Prod.mk.inj habsurd).2
      · have hlater : (blob, DataDescriptor.Inline blob) ∈ (blob, DataDescriptor.Url url) :: newer := by
          rw [hblobs]
          exact List.mem_append_right _ (List.mem_map.mpr ⟨blob, hblob, rfl⟩)
        rcases List.mem_cons.mp hlater with habsurd | hlater
        · cases (Prod.mk.inj habsurd).2
        · exact absurd rfl (hnewer _ hlater)

/-- Under the hash of a file there is nothing else, and it as long as all files can be read. -/
theorem provide_file (hhttp : HttpAdapter.Lawful) (htransfer : Transfer.Lawful) (h : db.Holds (importsOf files))
    (hnc : Store.NoCollision web (importsOf files)) {f : Imported} (hf : f ∈ files) :
    (∀ data, db.provide web (Bao.blake3 f.data) = some data → data = f.data) ∧
      ((∀ f ∈ files, f.OnWeb web) → db.provide web (Bao.blake3 f.data) = some f.data) := by
  have hmem : (f.data, DataDescriptor.Url f.url) ∈ importsOf files :=
    List.mem_append_left _ (List.mem_map.mpr ⟨f, hf, rfl⟩)
  obtain ⟨last, ⟨earlier, newer, heq, _⟩, _, hprovide⟩ := h.provide_eq_some_iff hhttp htransfer hnc hmem
  refine ⟨fun data hdata => ((hprovide data).mp hdata).1, fun hall => (hprovide f.data).mpr ⟨rfl, ?_⟩⟩
  have hlast : (f.data, last) ∈ importsOf files := by
    rw [heq]
    exact List.mem_append_right _ List.mem_cons_self
  cases last with
  | Inline bytes => trivial
  | Url url =>
      -- the last import of the data was one of a file, which need not be this one
      rcases List.mem_append.mp hlast with hfile | hblob
      · obtain ⟨g, hg, heq⟩ := List.mem_map.mp hfile
        obtain ⟨hdata, hurl⟩ := Prod.mk.inj heq
        cases hurl
        rw [← hdata]
        exact hall g hg
      · obtain ⟨_, _, habsurd⟩ := List.mem_map.mp hblob
        cases (Prod.mk.inj habsurd).2

/-- All files of a part of the collection. -/
theorem mapM_provide_files (hhttp : HttpAdapter.Lawful) (htransfer : Transfer.Lawful)
    (h : db.Holds (importsOf files)) (hnc : Store.NoCollision web (importsOf files)) {fs : List Imported}
    (hfs : fs ⊆ files) :
    (∀ datas, (fs.map fun f => Bao.blake3 f.data).mapM (db.provide web) = some datas →
        datas = fs.map Imported.data) ∧
      ((∀ f ∈ files, f.OnWeb web) →
        (fs.map fun f => Bao.blake3 f.data).mapM (db.provide web) = some (fs.map Imported.data)) := by
  induction fs with
  | nil =>
      refine ⟨fun datas hdatas => ?_, fun _ => rfl⟩
      cases hdatas
      rfl
  | cons f fs ih =>
      obtain ⟨honly, hall⟩ := ih fun g hg => hfs (List.mem_cons_of_mem _ hg)
      obtain ⟨honly', hall'⟩ := provide_file hhttp htransfer h hnc (hfs List.mem_cons_self)
      rw [List.map_cons, List.mapM_cons]
      refine ⟨fun datas hdatas => ?_, fun hweb => ?_⟩
      · obtain ⟨data, hdata, hrest⟩ := Option.bind_eq_some_iff.mp hdatas
        obtain ⟨datas', hdatas', hrest⟩ := Option.bind_eq_some_iff.mp hrest
        cases hrest
        rw [honly' data hdata, honly datas' hdatas', List.map_cons]
      · rw [hall' hweb, hall hweb]
        rfl

/-- The files that somebody should get. -/
def Contents (files : List Imported) : List (String × List UInt8) :=
  files.map fun f => (f.name, f.data)

/-- **What is served**: under the hash that is printed there is the collection of these files, and nothing
else; and all of it as long as the urls begin with them. -/
def Serves (served : Served) (files : List Imported) : Prop :=
  ∃ hash, served.lastHash = some hash ∧ served.hashes = files.map Imported.link ∧
    ∀ web, Store.NoCollision web (importsOf files) →
      (∀ contents, Collections.download (served.db.provide web) hash = some contents →
        contents = Contents files) ∧
      ((∀ f ∈ files, f.OnWeb web) →
        Collections.download (served.db.provide web) hash = some (Contents files))

theorem serves_serveCollection (laws : Bao.Lawful) (hhttp : HttpAdapter.Lawful)
    (htransfer : Transfer.Lawful) (claws : Collections.Lawful)
    (h : db.Holds (files.map Imported.import)) :
    Serves (serveCollection db (files.map Imported.link)) files := by
  obtain ⟨first, links, hblobs, hdownload, hlast, hholds⟩ := holds_serveCollection laws claws h
  refine ⟨Bao.blake3 links, hlast, rfl, fun web hnc => ?_⟩
  obtain ⟨honly, hall⟩ := mapM_provide_files hhttp htransfer hholds hnc (List.Subset.refl files)
  have hcontents := hdownload _ (provide_blob hhttp htransfer hholds hnc (by rw [hblobs]; simp))
    (provide_blob hhttp htransfer hholds hnc (by rw [hblobs]; simp))
  have hzip : (files.map Imported.name).zip (files.map Imported.data) = Contents files :=
    List.zip_map'
  refine ⟨fun contents hsome => ?_, fun hweb => (hcontents _).mpr ⟨_, hall hweb, hzip.symm⟩⟩
  obtain ⟨datas, hdatas, rfl⟩ := (hcontents _).mp hsome
  rw [honly datas hdatas, hzip]

/-! ## The commands -/

/-- **Serving a bucket.**  If it comes to serving at all, then there are files with the names and urls of the
listing, each as it was when it was read, and who asks for the hash that is printed gets these files and no
others, under these names; and does get them as long as the urls still begin with them. -/
theorem serveS3_serves (laws : Bao.Lawful) (hhttp : HttpAdapter.Lawful) (htransfer : Transfer.Lawful)
    (claws : Collections.Lawful) {asked fetch : ℕ → Web} {root : Url} {name : Option String}
    {served : Served} (hok : serveS3 asked fetch root name = .ok served) :
    ∃ xml keys, ReadFrom (asked 0) (fetch 0) root xml ∧ Collections.fromStr xml = .ok keys ∧
      ∃ files : List Imported,
        files.map (fun f => (f.name, (.ok f.url : Except String Url))) = keys.map (fun path =>
          (name.getD (safeName root) ++ "/" ++ path, Collections.join root path)) ∧
        (∀ j f, files[j]? = some f → ReadFrom (asked (1 + j)) (fetch (1 + j)) f.url f.data) ∧
        Serves served files := by
  rw [serveS3] at hok
  cases hxml : HttpAdapter.readToEnd (asked 0) (fetch 0) root with
  | none =>
      simp only [hxml] at hok
      cases hok
  | some xml =>
      simp only [hxml] at hok
      obtain ⟨_, heq, hok⟩ := bind_eq_ok.mp hok
      cases heq
      obtain ⟨keys, hkeys, hok⟩ := bind_eq_ok.mp hok
      obtain ⟨⟨db, hashes⟩, himport, hok⟩ := bind_eq_ok.mp hok
      cases hok
      obtain ⟨files, hitems, hfetch, rfl, hholds⟩ :=
        importUrls_eq_ok laws hhttp Store.holds_default himport
      exact ⟨xml, keys, (hhttp.readToEnd_eq_some_iff _ _ _ _).mp hxml, hkeys, files, hitems.symm, hfetch,
        serves_serveCollection laws hhttp htransfer claws hholds⟩

/-- **Serving urls.**  The same for urls that are given; the names are made from the urls, and a ticket is
printed for each of the files as well. -/
theorem serveUrls_serves (laws : Bao.Lawful) (hhttp : HttpAdapter.Lawful) (htransfer : Transfer.Lawful)
    (claws : Collections.Lawful) {asked fetch : ℕ → Web} {urls : List Url} {served : Served}
    (hok : serveUrls asked fetch urls = .ok served) :
    ∃ files : List Imported, files.map Imported.url = urls ∧
      files.map Imported.name = urls.map safeName ∧
      (∀ j f, files[j]? = some f → ReadFrom (asked j) (fetch j) f.url f.data) ∧ Serves served files := by
  obtain ⟨⟨db, hashes⟩, himport, hok⟩ := bind_eq_ok.mp hok
  cases hok
  obtain ⟨files, hitems, hfetch, rfl, hholds⟩ := importUrls_eq_ok laws hhttp Store.holds_default himport
  refine ⟨files, ?_, ?_, fun j f hf => ?_, serves_serveCollection laws hhttp htransfer claws hholds⟩
  · have hsnd := congrArg (List.map Prod.snd) hitems
    rw [List.map_map, List.map_map] at hsnd
    refine (List.map_injective_iff.mpr (fun a b => Except.ok.inj (ε := String)) ?_).symm
    rw [List.map_map]
    exact hsnd
  · have hfst := congrArg (List.map Prod.fst) hitems
    rw [List.map_map, List.map_map] at hfst
    exact hfst.symm
  · have hread := hfetch j f hf
    rwa [Nat.zero_add] at hread

end Serve

/-! ## A bucket -/

/-- A name with a 1 in front of each byte and a 0 at the end. -/
def frame (name : String) : List UInt8 := name.toUTF8.data.toList.flatMap (fun b => [1, b]) ++ [0]

def unframe : List UInt8 → List UInt8 → Option (List (List UInt8))
  | _, [] => some []
  | name, 0 :: rest => (unframe [] rest).map (name :: ·)
  | name, 1 :: b :: rest => unframe (name ++ [b]) rest
  | _, _ => none

theorem unframe_append (bytes name rest : List UInt8) :
    unframe name (bytes.flatMap (fun b => [1, b]) ++ 0 :: rest)
      = (unframe [] rest).map ((name ++ bytes) :: ·) := by
  induction bytes generalizing name with
  | nil => rw [List.append_nil]; rfl
  | cons b bytes ih =>
      show unframe (name ++ [b]) (bytes.flatMap (fun b => [1, b]) ++ 0 :: rest) = _
      rw [ih, List.append_assoc, List.singleton_append]

theorem unframe_frames (names : List String) :
    unframe [] (names.flatMap frame) = some (names.map fun name => name.toUTF8.data.toList) := by
  induction names with
  | nil => rfl
  | cons name names ih =>
      rw [List.flatMap_cons, frame, List.append_assoc, List.singleton_append, unframe_append, ih]
      rfl

theorem mapM_fromUTF8 (names : List String) :
    (names.map fun name => name.toUTF8.data.toList).mapM (fun bytes => String.fromUTF8? ⟨bytes.toArray⟩)
      = some names := by
  induction names with
  | nil => rfl
  | cons name names ih =>
      have hname : String.fromUTF8? ⟨name.toUTF8.data.toList.toArray⟩ = some name :=
        dif_pos name.isValidUTF8
      rw [List.map_cons, List.mapM_cons, hname, ih]
      rfl

/-- The names that were framed. -/
def unframeNames (data : List UInt8) : Option (List String) :=
  (unframe [] data).bind fun names => names.mapM fun bytes => String.fromUTF8? ⟨bytes.toArray⟩

theorem unframeNames_frames (names : List String) : unframeNames (names.flatMap frame) = some names := by
  rw [unframeNames, unframe_frames, Option.bind_some, mapM_fromUTF8]

/-- The hashes in a hash sequence, which are one after the other. -/
def hashSeq (data : List UInt8) : Option (List Hash) :=
  ((Codec.bytes 32).takeList (data.length / 32) data).map Prod.fst

theorem hashSeq_encode (hashes : List Hash) :
    hashSeq (hashes.flatMap (Codec.bytes 32).encode) = some hashes := by
  have hlen : (hashes.flatMap (Codec.bytes 32).encode).length / 32 = hashes.length := by
    rw [List.length_flatMap, List.map_congr_left fun hash _ => Codec.bytes_encode_length 32 hash]
    simp
  have htake := Codec.takeList_flatMap (Codec.bytes 32) hashes (fun _ _ => trivial) []
  rw [List.append_nil] at htake
  rw [hashSeq, hlen, htake]
  rfl

/-- A collection is its names, framed, and then the hash of these and its hashes.  A listing is the names of
the keys, framed. -/
@[reducible] def Collections.framed [Bao] : Collections where
  fromStr data := match unframeNames data with
    | some keys => .ok keys
    | none => .error "invalid xml"
  join root path := .ok (root ++ path)
  toBlobs collection :=
    let first := (collection.map Prod.fst).flatMap frame
    [first, (Bao.blake3 first :: collection.map Prod.snd).flatMap (Codec.bytes 32).encode]
  download provide hash := do
    let links ← provide hash
    match ← hashSeq links with
    | [] => none
    | first :: hashes => do
        let first ← provide first
        let names ← unframeNames first
        let datas ← hashes.mapM provide
        return names.zip datas

theorem Collections.framed_lawful [Bao] : @Collections.Lawful _ Collections.framed := by
  intro collection
  refine ⟨_, _, rfl, fun provide hfirst hlinks contents => ?_⟩
  show (provide _).bind _ = _ ↔ _
  rw [hlinks, Option.bind_some, hashSeq_encode, Option.bind_eq_bind, Option.bind_some]
  simp only [hfirst, unframeNames_frames, Option.bind_eq_bind, Option.bind_some]
  rw [Option.bind_eq_some_iff]
  refine exists_congr fun datas => and_congr_right fun _ => ?_
  exact ⟨fun h => (Option.some.inj h).symm, fun h => congrArg some h.symm⟩

section Example

attribute [local instance] Bao.padding HttpAdapter.direct Transfer.checked Collections.framed

/-- A bucket with two files. -/
def bucket : Web := fun url =>
  if url = "s3/" then some (["a", "b"].flatMap frame)
  else if url = "s3/a" then some [1]
  else if url = "s3/b" then some [2]
  else none

/-- What is imported. -/
def bucketFiles : List Imported := [⟨"s3_/a", "s3/a", [1]⟩, ⟨"s3_/b", "s3/b", [2]⟩]

/-- The data is short, except for the hashes, whose length no other data has. -/
theorem noCollision_bucket : Store.NoCollision bucket (importsOf bucketFiles) := by
  have himports : ∀ i ∈ importsOf bucketFiles, i.1.length < 256 ∧
      (i.1.length ≤ 31 ∨ i.1.length = 96 ∧ i = (importsOf bucketFiles).getLast (by decide)) := by
    decide +kernel
  have hbucket : ∀ url bytes, bucket url = some bytes → bytes.length ≤ 31 := by
    intro url bytes hbytes
    rw [bucket] at hbytes
    split_ifs at hbytes
    all_goals
      cases hbytes
      decide
  intro i hi
  obtain ⟨hlt, hle⟩ := himports i hi
  refine ⟨fun i' hi' hpad => ?_, fun url bytes hbytes n hpad => ?_⟩
  · obtain ⟨hlt', hle'⟩ := himports i' hi'
    rcases hle with hle | ⟨_, hlast⟩
    · exact eq_of_pad_eq hlt' hle hpad
    · rcases hle' with hle' | ⟨_, hlast'⟩
      · exact (eq_of_pad_eq hlt hle' hpad.symm).symm
      · rw [hlast, hlast']
  · have htake : (bytes.take n).length ≤ 31 :=
      Nat.le_trans (List.length_take_le' n bytes) (hbucket url bytes hbytes)
    exact (eq_of_pad_eq hlt htake hpad.symm).symm

/-- The conditions can be met. -/
theorem serveS3_serves_bucket :
    ∃ served hash, serveS3 (fun _ => bucket) (fun _ => bucket) "s3/" none = .ok served ∧
      served.lastHash = some hash ∧
      Collections.download (served.db.provide bucket) hash
        = some [("s3_/a", [1]), ("s3_/b", [2])] := by
  have hok : ∃ served, serveS3 (fun _ => bucket) (fun _ => bucket) "s3/" none = .ok served := ⟨_, rfl⟩
  obtain ⟨served, hok⟩ := hok
  obtain ⟨xml, keys, hxml, hkeys, files, hitems, hfetch, hash, hlast, _, hdownload⟩ :=
    serveS3_serves Bao.padding_lawful HttpAdapter.direct_lawful Transfer.checked_lawful
      Collections.framed_lawful hok
  -- nothing changes while the bucket is read
  have hread : ∀ url data bytes, bucket url = some bytes → ReadFrom bucket bucket url data →
      bytes = data := by
    rintro url data bytes hbytes ⟨old, new, hold, hnew, rfl⟩
    rw [hbytes] at hold hnew
    cases hold
    cases hnew
    exact List.take_length.symm
  have hxml' : ["a", "b"].flatMap frame = xml := hread "s3/" xml _ rfl hxml
  have hkeys' : Collections.fromStr (["a", "b"].flatMap frame) = .ok ["a", "b"] := by decide +kernel
  rw [hxml', hkeys] at hkeys'
  cases hkeys'
  have hfiles : files = bucketFiles := by
    have hnames : (["a", "b"].map fun path => ((none : Option String).getD (safeName "s3/") ++ "/" ++ path,
        Collections.join "s3/" path)) = bucketFiles.map fun f => (f.name, .ok f.url) := by
      decide +kernel
    rw [hnames] at hitems
    match files with
    | [] | [_] | _ :: _ :: _ :: _ => simp [bucketFiles] at hitems
    | [f, g] =>
        obtain ⟨fname, furl, fdata⟩ := f
        obtain ⟨gname, gurl, gdata⟩ := g
        simp only [bucketFiles, List.map_cons, List.map_nil, List.cons.injEq, Prod.mk.injEq,
          Except.ok.injEq, and_true] at hitems
        obtain ⟨⟨rfl, rfl⟩, rfl, rfl⟩ := hitems
        have hf : [1] = fdata := hread "s3/a" fdata _ rfl (hfetch 0 _ rfl)
        have hg : [2] = gdata := hread "s3/b" gdata _ rfl (hfetch 1 _ rfl)
        rw [bucketFiles, hf, hg]
  subst hfiles
  obtain ⟨_, hall⟩ := hdownload bucket noCollision_bucket
  refine ⟨served, hash, hok, hlast, hall fun f hf => ?_⟩
  rcases List.mem_cons.mp hf with rfl | hf
  · exact ⟨[1], rfl, List.prefix_rfl⟩
  · rw [List.mem_singleton.mp hf]
    exact ⟨[2], rfl, List.prefix_rfl⟩

end Example

end IrohExperiments.BaoStore
