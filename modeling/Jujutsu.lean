import Jujutsu.RepoPath
import Jujutsu.Matchers.Basic
import Jujutsu.Matchers.Dirs
import Jujutsu.Matchers.FilesMatcher
import Jujutsu.Matchers.PrefixMatcher
import Jujutsu.Matchers.Traversal
import Jujutsu.Matchers.Pruning
