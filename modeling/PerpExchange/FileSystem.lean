/-!
The part of a file system that is the same on every machine, and where paths lead in it. The names
of a path are separated by slashes. A path that begins with a slash begins at the root, and any
other in a directory of the program's own. Directories that are not there yet are made on the way.
-/

namespace PerpExchange.FileSystem

/-- The names that lead to a place from the root, the last one first. -/
abbrev Place := List String

/-- What stands at a place. -/
inductive Entry where
  /-- A directory. One that shows the state of the system takes nothing from anyone. -/
  | directory (takesFiles : Bool)
  | file
  | link (target : String)
  deriving DecidableEq

/-- The most bytes a name has. -/
def maxNameSize : Nat := 255

/-- The most bytes a path has. -/
def maxPathSize : Nat := 4095

/-- The most links that are followed on one way. -/
def maxLinks : Nat := 40

/-- The names of a path. Slashes in a row count as one. -/
def names (path : String) : List String := (path.splitOn "/").filter (· ≠ "")

/-- The place of a path that holds names only, from the root. -/
def place (path : String) : Place := (names path).reverse

/-- The directory of the program's own. -/
def workDirectory : String := "/tmp/work"

/-- Where a path begins. -/
def origin (path : String) : Place := place (if path.startsWith "/" then "" else workDirectory)

/-- The paths of names in a directory. -/
def within (directory : String) (names : List String) : List String :=
  names.map fun name => directory ++ "/" ++ name

/-- Directories that take files. -/
def directories : List String :=
  ["/", workDirectory] ++ within "" ["boot", "dev", "etc", "home", "media", "mnt", "opt", "root",
    "run", "srv", "tmp", "usr", "var"] ++
  within "/usr" ["bin", "games", "include", "lib", "lib64", "libexec", "local", "sbin", "share",
    "src"] ++
  within "/usr/local" ["bin", "etc", "include", "lib", "sbin", "share", "src"] ++
  within "/var" ["backups", "cache", "lib", "local", "log", "mail", "opt", "spool", "tmp"] ++
  ["/dev/shm", "/run/lock"]

/-- What stands for a process of the system. The program sees itself as the first one. -/
def processes : List String := ["/proc/1", "/proc/1/task/1"]

/-- Directories that show the state of the system. -/
def views : List String :=
  ["/proc", "/sys", "/dev/mqueue", "/dev/pts", "/proc/1/map_files", "/proc/1/net/stat",
    "/proc/1/task"] ++
  processes ++
  processes.flatMap (within · ["attr", "fd", "fdinfo", "net", "ns"]) ++
  within "/proc" ["acpi", "bus", "driver", "fs", "irq", "pressure", "scsi", "sys", "sysvipc",
    "tty"] ++
  within "/proc/sys" ["abi", "debug", "dev", "fs", "kernel", "net", "user", "vm"] ++
  within "/proc/sys/fs" ["binfmt_misc", "epoll", "inotify", "mqueue"] ++
  within "/proc/sys/kernel" ["keys", "pty", "random"] ++
  within "/proc/sys/net" ["core", "ipv4", "ipv6", "netfilter", "unix"] ++
  within "/sys" ["block", "bus", "class", "dev", "devices", "firmware", "fs", "kernel", "module",
    "power"] ++
  within "/sys/class" ["block", "mem", "misc", "net", "tty"] ++
  within "/sys/dev" ["block", "char"] ++
  within "/sys/devices" ["platform", "system", "system/cpu", "system/node", "virtual"] ++
  within "/sys/fs" ["cgroup"] ++ within "/sys/kernel" ["debug", "mm", "security", "tracing"]

/-- Links, each with the path it stands for. -/
def links : List (String × String) :=
  [("/bin", "/usr/bin"), ("/lib", "/usr/lib"), ("/lib64", "/usr/lib64"), ("/sbin", "/usr/sbin"),
    ("/dev/fd", "/proc/self/fd"), ("/dev/stdin", "/proc/self/fd/0"),
    ("/dev/stdout", "/proc/self/fd/1"), ("/dev/stderr", "/proc/self/fd/2"),
    ("/proc/self", "/proc/1"), ("/proc/thread-self", "/proc/1/task/1"),
    ("/proc/net", "/proc/self/net"), ("/var/run", "/run"), ("/var/lock", "/run/lock")] ++
  processes.flatMap fun process => [(process ++ "/cwd", workDirectory), (process ++ "/root", "/")]

/-- Commands, with which directories of commands begin. -/
def commands : List String :=
  ["awk", "base64", "basename", "bash", "cat", "chgrp", "chmod", "chown", "cp", "cut", "date", "dd",
    "df", "dirname", "du", "echo", "env", "expr", "false", "find", "grep", "gzip", "head", "id",
    "kill", "ln", "ls", "md5sum", "mkdir", "mkfifo", "mknod", "mktemp", "more", "mount", "mv",
    "nice", "nohup", "od", "printf", "pwd", "readlink", "rm", "rmdir", "sed", "seq", "sh",
    "sha256sum", "sleep", "sort", "stat", "stty", "su", "sync", "tail", "tar", "tee", "test",
    "touch", "tr", "true", "tty", "umount", "uname", "uniq", "wc", "which", "whoami", "xargs",
    "yes"]

/-- Files that stand in directories which take more. Those in views need not be told apart from
places where nothing is. -/
def files : List String :=
  within "/dev" ["console", "core", "full", "null", "ptmx", "random", "tty", "urandom", "zero"] ++
  within "/etc" ["fstab", "group", "gshadow", "host.conf", "hostname", "hosts", "issue", "mtab",
    "nsswitch.conf", "os-release", "passwd", "profile", "resolv.conf", "shadow", "shells"] ++
  within "/usr/bin" commands

/-- What every system has. -/
def entries : List (Place × Entry) :=
  (directories.map fun path => (place path, .directory true)) ++
  (views.map fun path => (place path, .directory false)) ++
  (files.map fun path => (place path, .file)) ++
  links.map fun (path, target) => (place path, .link target)

/-- What is known to stand at a place. -/
def entry? (p : Place) : Option Entry := entries.lookup p

/-- Whether files can be put into a directory. One that is not known is anyone's. -/
def takesFiles (p : Place) : Bool :=
  match entry? p with
  | some (.directory takesFiles) => takesFiles
  | some .file | some (.link _) => false
  | none => true

/-- Whether a directory that names follow is made where it is missing. Before points it would have
to be there first. -/
def isMadeBefore (names : List String) : Bool := names.isEmpty || names.any (· ≠ ".")

/-- Where names lead from a place, given how many links may still be followed and the directories
that were made so far. A point stays where it is, and two points go one up. There is no way through
a file, and none to a name that is too long or cannot be made. -/
def walk? (links : Nat) (made : List Place) (here : Place) (names : List String) : Option Place :=
  match names with
  | [] => some here
  | name :: rest =>
    if name = "." then walk? links made here rest
    else if name = ".." then walk? links made here.tail rest
    else if maxNameSize < name.utf8ByteSize then none
    else
      let next := name :: here
      match entry? next with
      | some (.directory _) => walk? links made next rest
      | some .file => none
      | some (.link target) =>
        match links with
        | 0 => none
        | links + 1 => walk? links made (origin target) (FileSystem.names target ++ rest)
      | none =>
        if takesFiles here ∧ (next ∈ made ∨ isMadeBefore rest) then
          walk? links (next :: made) next rest
        else none
termination_by (links, names.length)

/-- The directory a path leads to, if it is there or can be made. -/
def directory? (path : String) : Option Place :=
  if maxPathSize < path.utf8ByteSize then none else walk? maxLinks [] (origin path) (names path)

end PerpExchange.FileSystem
